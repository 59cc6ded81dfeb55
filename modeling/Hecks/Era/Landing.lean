import Hecks.Era.Reference

/-! Where the host's transform leaves the values of a state. A rule that lands on a key or a member
already held puts its value in the place of the one there. -/
namespace Hecks.Era.Reference

open Hecks.Host (Serde)
open Lockstep

/-- One rule of an exported edge, in the order the transform takes them. -/
inductive Instruction where
  | rename (old new : String)
  | move (source target : String)
  | convert (source target : String) (values : List Serde)
  | drop (name : String)
  | backfill (name : String) (default : Serde)

def instructions (raw : Serde) : List Instruction :=
  (((raw.get "renames").bind Serde.asObject).getD []).filterMap
      (fun rename => rename.2.asStr.map (Instruction.rename rename.1)) ++
    ((list raw "moves").map (fun move => .move (text move "from") (text move "to")) ++
    ((list raw "converts").map
      (fun convert => .convert (text convert "from") (text convert "to") (list convert "values")) ++
    ((list raw "drops").filterMap (fun name => name.asStr.map .drop) ++
    (list raw "backfills").filterMap fun backfill =>
      ((backfill.get "name").bind Serde.asStr).map fun name =>
        .backfill name ((backfill.get "default").getD .null))))

def renamed (state : State) (old new : String) : State :=
  match state old with
  | some value => (state.delete old).put new value
  | none => state

def perform (display : Serde → String) (state : State) : Instruction → Except String State
  | .rename old new => .ok (renamed state old new)
  | .move source target => applyMove display state source target
  | .convert source target values => applyConvert display state source target values
  | .drop name => .ok (applyDrop state name)
  | .backfill name default => applyBackfill display state name default

section

variable (display : Serde → String)

def applyDrops (state : State) (names : List Serde) : State :=
  names.foldl (fun state name => (name.asStr.map (applyDrop state)).getD state) state

def applyBackfills (state : State) (items : List Serde) : Except String State :=
  items.foldlM (fun state backfill =>
    (((backfill.get "name").bind Serde.asStr).map fun name =>
      applyBackfill display state name ((backfill.get "default").getD .null)).getD (.ok state)) state

theorem translate_stages (raw : Serde) (state : State) :
    translate display raw state =
      (list raw "moves").foldlM (fun state move =>
        applyMove display state (text move "from") (text move "to"))
          (applyRenames state (((raw.get "renames").bind Serde.asObject).getD [])) >>=
        fun state => (list raw "converts").foldlM (fun state convert =>
          applyConvert display state (text convert "from") (text convert "to")
            (list convert "values")) state >>=
        fun state => applyBackfills display (applyDrops state (list raw "drops"))
          (list raw "backfills") := by
  unfold translate applyDrops applyBackfills
  dsimp only
  refine congrArg (_ >>= ·) (funext fun state => ?_)
  refine congrArg (_ >>= ·) (funext fun state => ?_)
  congr 1
  · funext state backfill
    cases (backfill.get "name").bind Serde.asStr <;> rfl
  · congr 1
    funext state name
    cases name.asStr <;> rfl

/-- The transform is its rules, one after the other. -/
theorem translate_instructions (raw : Serde) (state : State) :
    translate display raw state = (instructions raw).foldlM (perform display) state := by
  have renames : ∀ (renames : List (String × Serde)) (state : State),
      (renames.filterMap fun rename => rename.2.asStr.map (Instruction.rename rename.1)).foldlM
        (perform display) state = .ok (applyRenames state renames) := by
    intro renames state
    unfold applyRenames
    rw [List.foldlM_filterMap, ← Rewrite.foldlM_ok]
    congr 1
    funext state rename
    obtain ⟨old, new⟩ := rename
    cases read : new.asStr <;> simp [read, perform, renamed] <;> rfl
  have drops : ∀ (names : List Serde) (state : State),
      (names.filterMap fun name => name.asStr.map Instruction.drop).foldlM (perform display) state =
        .ok (applyDrops state names) := by
    intro names state
    unfold applyDrops
    rw [List.foldlM_filterMap, ← Rewrite.foldlM_ok]
    congr 1
    funext state name
    cases read : name.asStr <;> rfl
  have backfills : ∀ (items : List Serde) (state : State),
      (items.filterMap fun backfill =>
        ((backfill.get "name").bind Serde.asStr).map fun name =>
          Instruction.backfill name ((backfill.get "default").getD .null)).foldlM
        (perform display) state = applyBackfills display state items := by
    intro items state
    unfold applyBackfills
    rw [List.foldlM_filterMap]
    congr 1
    funext state backfill
    cases read : (backfill.get "name").bind Serde.asStr <;> rfl
  rw [translate_stages]
  unfold instructions
  simp only [List.foldlM_append, renames, drops, backfills, List.foldlM_map]
  rfl

end

/-! ### Values by the way to them -/

/-- The value under a value, key by key. -/
def within (value : Serde) : List String → Option Serde
  | [] => some value
  | key :: keys => (value.get key).bind fun inner => within inner keys

def valueAt (state : State) : List String → Option Serde
  | [] => none
  | top :: keys => (state top).bind fun value => within value keys

/-- A value with nothing under a key of it. -/
def Atomic (value : Serde) : Prop := ∀ fields, value = .object fields → fields = []

/-- The value is there; in the place of an empty object there may be more members by now. -/
def Holds (state : State) (path : List String) (value : Serde) : Prop :=
  ∃ found, valueAt state path = some found ∧
    (found = value ∨ value = .object [] ∧ ∃ fields, found = .object fields)

theorem within_append (value : Serde) (keys more : List String) :
    within value (keys ++ more) = (within value keys).bind fun inner => within inner more := by
  induction keys generalizing value with
  | nil => rfl
  | cons key keys ih =>
    rw [List.cons_append, within, within]
    cases value.get key with
    | none => rfl
    | some inner => exact ih inner

theorem valueAt_append (state : State) {path : List String} (some' : path ≠ [])
    (more : List String) :
    valueAt state (path ++ more) = (valueAt state path).bind fun inner => within inner more := by
  cases path with
  | nil => exact absurd rfl some'
  | cons top keys =>
    rw [List.cons_append, valueAt, valueAt]
    cases state top with
    | none => rfl
    | some value => exact within_append value keys more

/-- What stands above a value is there too. -/
theorem Holds.above {state : State} {path below : List String} {value : Serde}
    (h : Holds state (path ++ below) value) (some' : path ≠ []) :
    ∃ whole, valueAt state path = some whole := by
  obtain ⟨found, reached, -⟩ := h
  rw [valueAt_append state some'] at reached
  exact (Option.bind_eq_some_iff.mp reached).imp fun whole both => both.1

theorem get_insert (key other : String) (value : Serde) (fields : List (String × Serde)) :
    (Serde.object (Serde.insert key value fields)).get other =
      if other = key then some value else (Serde.object fields).get other := by
  induction fields with
  | nil =>
    by_cases same : other = key
    · simp [Serde.insert, Serde.get, same]
    · simp [Serde.insert, Serde.get, same, Ne.symm same]
  | cons f fields ih =>
    rw [Serde.insert]
    simp only [Serde.get] at ih ⊢
    by_cases here : f.1 = key
    · rw [if_pos here]
      by_cases same : other = key
      · simp [same]
      · have no : f.1 ≠ other := fun eq => same (eq ▸ here)
        simp [same, no, Ne.symm same]
    · rw [if_neg here, List.find?_cons, List.find?_cons]
      by_cases first : f.1 = other
      · have no : other ≠ key := first ▸ here
        simp [first, no]
      · simp only [first, decide_false]
        exact ih

theorem get_erase (key other : String) (fields : List (String × Serde)) :
    (Serde.object (erase key fields)).get other =
      if other = key then none else (Serde.object fields).get other := by
  induction fields with
  | nil => simp [erase, Serde.get]
  | cons f fields ih =>
    simp only [erase, Serde.get] at ih ⊢
    by_cases here : f.1 = key
    · rw [List.filter_cons_of_neg (by simp [here]), ih, List.find?_cons]
      by_cases same : other = key
      · rw [if_pos same, if_pos same]
      · have no : f.1 ≠ other := fun eq => same (eq ▸ here)
        simp [same, no]
    · rw [List.filter_cons_of_pos (by simp [here]), List.find?_cons, List.find?_cons]
      by_cases first : f.1 = other
      · have no : other ≠ key := first ▸ here
        simp [first, no]
      · simp only [first, decide_false]
        exact ih

/-! ### Taking out and putting in -/

/-- A path of at most two keys, as the rules write them. -/
abbrev Spot := String × Option String

def Spot.path (spot : Spot) : List String := spot.1 :: spot.2.toList

theorem Spot.path_ne_nil (spot : Spot) : spot.path ≠ [] := List.cons_ne_nil _ _

variable {state rest next : State} {value taken : Serde} {top : String} {member : Option String}
  {path : List String}

theorem extract_some_iff :
    (∃ rest, extract state top member = some (taken, rest)) ↔
      valueAt state (Spot.path (top, member)) = some taken := by
  cases member with
  | none =>
    simp only [extract, Spot.path, Option.toList_none, valueAt, within]
    cases state top <;> simp
  | some member =>
    simp only [extract, Spot.path, Option.toList_some, valueAt, within]
    cases stored : state top with
    | none => simp
    | some held =>
      cases held with
      | object fields =>
        simp only [Option.bind_some, Serde.asObject, Option.bind_eq_bind]
        cases found : (Serde.object fields).get member with
        | none => simp
        | some inner =>
          by_cases emptied : erase member fields = []
          · simp [emptied]
          · simp [emptied]
      | _ => simp [Serde.asObject, Serde.get]

theorem Holds.of_eq {other : State} {first : String} {keys : List String}
    (h : Holds state (first :: keys) value) (same : other first = state first) :
    Holds other (first :: keys) value := by
  obtain ⟨found, reached, meets⟩ := h
  refine ⟨found, ?_, meets⟩
  rw [valueAt, same]
  exact reached

/-- Below another key of the same object. -/
theorem Holds.of_get {other : State} {first key : String} {keys : List String}
    {fields fields' : List (String × Serde)} (h : Holds state (first :: key :: keys) value)
    (before : state first = some (.object fields)) (after : other first = some (.object fields'))
    (same : (Serde.object fields').get key = (Serde.object fields).get key) :
    Holds other (first :: key :: keys) value := by
  obtain ⟨found, reached, meets⟩ := h
  refine ⟨found, ?_, meets⟩
  simp only [valueAt, before, after, Option.bind_some, within, same] at reached ⊢
  exact reached

/-- What a value is taken from keeps every other value. -/
theorem holds_extract (took : extract state top member = some (taken, rest))
    (h : Holds state path value) (atomic : Atomic value)
    (apart : ¬ Spot.path (top, member) <+: path)
    (unopened : value = .object [] → ∀ key, Spot.path (top, member) ≠ path ++ [key]) :
    Holds rest path value := by
  cases path with
  | nil =>
    obtain ⟨found, reached, -⟩ := h
    cases reached
  | cons first keys =>
    by_cases here : first = top
    · subst here
      cases member with
      | none => exact absurd (by simp [Spot.path]) apart
      | some member =>
        obtain ⟨found, reached, meets⟩ := id h
        simp only [extract, valueAt] at took reached
        cases stored : state first with
        | none => simp [stored] at took
        | some held =>
          cases held with
          | object fields =>
            simp only [stored, Option.bind_some, Serde.asObject, Option.bind_eq_bind,
              Option.bind_eq_some_iff] at took reached
            obtain ⟨inner, present, put⟩ := took
            cases keys with
            | nil =>
              cases reached
              obtain whole | ⟨none, -⟩ := meets
              · rw [atomic fields whole.symm] at present
                cases present
              · exact absurd rfl (unopened none member)
            | cons key keys =>
              have other : key ≠ member := by
                rintro rfl
                exact apart (by simp [Spot.path])
              have left := get_erase member key fields
              rw [if_neg other] at left
              have some' : erase member fields ≠ [] := by
                intro none
                rw [none] at left
                rw [within, ← left] at reached
                cases reached
              rw [if_neg some'] at put
              cases put
              exact h.of_get stored (Renaming.Store.put_self _ _ _) left
          | _ => simp [stored, Serde.asObject] at took
    · refine h.of_eq ?_
      cases member with
      | none =>
        simp only [extract, Option.map_eq_some_iff] at took
        obtain ⟨_, -, put⟩ := took
        cases put
        exact Renaming.Store.delete_of_ne here state
      | some member =>
        simp only [extract, Option.bind_eq_bind, Option.bind_eq_some_iff] at took
        obtain ⟨nested, -, inner, -, put⟩ := took
        by_cases emptied : erase member nested = []
        · rw [if_pos emptied] at put
          cases put
          exact Renaming.Store.delete_of_ne here state
        · rw [if_neg emptied] at put
          cases put
          exact Renaming.Store.put_of_ne here state _

variable {display : Serde → String} {rule : String}

/-- A value put where nothing is keeps every other value. -/
theorem holds_insert (done : insert display state top member taken rule = .ok next)
    (free : valueAt state (Spot.path (top, member)) = none) (h : Holds state path value)
    (atomic : Atomic value) : Holds next path value := by
  cases path with
  | nil =>
    obtain ⟨found, reached, -⟩ := h
    cases reached
  | cons first keys =>
    by_cases here : first = top
    · subst here
      obtain ⟨found, reached, meets⟩ := id h
      obtain ⟨held, stored⟩ : ∃ held, state first = some held := by
        rw [valueAt, Option.bind_eq_some_iff] at reached
        obtain ⟨held, stored, -⟩ := reached
        exact ⟨held, stored⟩
      cases member with
      | none =>
        rw [Spot.path, Option.toList_none, valueAt, stored] at free
        cases free
      | some member =>
        cases held with
        | object fields =>
          simp only [insert, stored, Option.getD_some, Except.ok.injEq] at done
          subst done
          cases keys with
          | nil =>
            simp only [valueAt, stored, Option.bind_some, within, Option.some.injEq] at reached
            subst reached
            refine ⟨.object (Serde.insert member taken fields), ?_, .inr ⟨?_, _, rfl⟩⟩
            · simp [valueAt, within]
            · obtain whole | ⟨none, -⟩ := meets
              · rw [← whole, atomic fields whole.symm]
              · exact none
          | cons key keys =>
            have other : key ≠ member := by
              rintro rfl
              simp only [Spot.path, Option.toList_some, valueAt, stored, Option.bind_some, within,
                Option.bind_eq_none_iff, reduceCtorEq, imp_false] at free
              simp only [valueAt, stored, Option.bind_some, within,
                Option.bind_eq_some_iff] at reached
              obtain ⟨inner, present, -⟩ := reached
              exact free inner present
            refine h.of_get stored (Renaming.Store.put_self _ _ _) ?_
            rw [get_insert, if_neg other]
        | _ => simp [insert, stored] at done
    · refine h.of_eq ?_
      cases member with
      | none =>
        cases done
        exact Renaming.Store.put_of_ne here state _
      | some member =>
        simp only [insert] at done
        cases stored : (state top).getD (.object []) with
        | object fields =>
          rw [stored] at done
          cases done
          exact Renaming.Store.put_of_ne here state _
        | _ =>
          rw [stored] at done
          cases done

theorem valueAt_insert (done : insert display state top member value rule = .ok next) :
    valueAt next (Spot.path (top, member)) = some value := by
  cases member with
  | none =>
    cases done
    simp [Spot.path, valueAt, within]
  | some member =>
    simp only [insert] at done
    cases stored : (state top).getD (.object []) with
    | object fields =>
      rw [stored] at done
      cases done
      simp only [Spot.path, Option.toList_some, valueAt, Renaming.Store.put_self, Option.bind_some,
        within, get_insert, if_true]
    | _ =>
      rw [stored] at done
      cases done

/-! ### What one rule does to the values of a state -/

namespace Instruction

/-- Where a rename, move or convert takes its value from and where it puts it. -/
def ends : Instruction → Option (Spot × Spot)
  | rename old new => some ((old, none), (new, none))
  | move source target | convert source target _ => some (splitPath source, splitPath target)
  | drop _ | backfill _ _ => none

/-- The path a rule names as the one its value is taken from. -/
def source : Instruction → Option Spot
  | rename old _ => some (old, none)
  | move source _ | convert source _ _ => some (splitPath source)
  | drop name => some (splitPath name)
  | backfill _ _ => none

/-- What is put for a value taken. -/
def answer : Instruction → Serde → Option Serde
  | convert _ _ values, taken => mapped values taken
  | _, taken => some taken

/-- The rule names the value, or one it is part of. -/
def Names (r : Instruction) (path : List String) : Prop :=
  ∃ spot, r.source = some spot ∧ spot.path <+: path

end Instruction

theorem perform_ends {r : Instruction} {source target : Spot} (ends : r.ends = some (source, target))
    (took : extract state source.1 source.2 = some (taken, rest))
    (done : perform display state r = .ok next) :
    ∃ put rule, r.answer taken = some put ∧
      insert display rest target.1 target.2 put rule = .ok next := by
  cases r with
  | rename old new =>
    cases ends
    simp only [extract, Option.map_eq_some_iff, Prod.mk.injEq] at took
    obtain ⟨value, stored, rfl, rfl⟩ := took
    simp only [perform, renamed, stored] at done
    exact ⟨value, "", rfl, done⟩
  | move =>
    cases ends
    simp only [perform, applyMove, took] at done
    exact ⟨taken, _, rfl, done⟩
  | convert =>
    cases ends
    simp only [perform, applyConvert, took] at done
    cases found : mapped _ taken with
    | none =>
      rw [found] at done
      cases done
    | some put =>
      rw [found] at done
      exact ⟨put, _, found, done⟩
  | drop => cases ends
  | backfill => cases ends

theorem perform_absent {r : Instruction} {source target : Spot}
    (ends : r.ends = some (source, target)) (absent : extract state source.1 source.2 = none)
    (done : perform display state r = .ok next) : next = state := by
  cases r with
  | rename old new =>
    cases ends
    simp only [extract, Option.map_eq_none_iff] at absent
    simp only [perform, renamed, absent] at done
    cases done
    rfl
  | move =>
    cases ends
    simp only [perform, applyMove, absent] at done
    cases done
    rfl
  | convert =>
    cases ends
    simp only [perform, applyConvert, absent] at done
    cases done
    rfl
  | drop => cases ends
  | backfill => cases ends

theorem backfill_cases {name : String} {default : Serde}
    (done : perform display state (.backfill name default) = .ok next) :
    next = state ∨ ∃ top member rule, valueAt state (Spot.path (top, member)) = none ∧
      insert display state top member default rule = .ok next := by
  simp only [perform, applyBackfill] at done
  generalize splitPath name = spot at done
  obtain ⟨top, member⟩ := spot
  cases member with
  | none =>
    dsimp only at done
    by_cases there : (state top).isSome = true
    · rw [if_pos there] at done
      cases done
      exact .inl rfl
    · rw [if_neg there] at done
      rw [Option.not_isSome_iff_eq_none] at there
      exact .inr ⟨top, none, _, by simp [Spot.path, valueAt, there], done⟩
  | some member =>
    dsimp only at done
    by_cases there : ((state top).bind Serde.asObject).any (fun nested =>
        ((Serde.object nested).get member).isSome) = true
    · rw [if_pos there] at done
      cases done
      exact .inl rfl
    · rw [if_neg there] at done
      refine .inr ⟨top, some member, _, ?_, done⟩
      simp only [Spot.path, Option.toList_some, valueAt, within]
      cases stored : state top with
      | none => rfl
      | some held =>
        cases held with
        | object fields =>
          simp only [stored, Option.bind_some, Serde.asObject, Option.any_some,
            Option.not_isSome_iff_eq_none] at there
          simp [there]
        | _ => rfl

/-- A rename, move or convert whose source is there finds nothing at its destination, once the
value is taken out. -/
def Free (state : State) (r : Instruction) : Prop :=
  ∀ source target taken rest, r.ends = some (source, target) →
    extract state source.1 source.2 = some (taken, rest) → valueAt rest target.path = none

/-- One whose destination holds a value refuses. -/
def Refuses (display : Serde → String) (state : State) (r : Instruction) : Prop :=
  ∀ source target taken rest, r.ends = some (source, target) →
    extract state source.1 source.2 = some (taken, rest) → valueAt rest target.path ≠ none →
      ∃ refusal, perform display state r = .error refusal

theorem refuses_iff_free {r : Instruction} (done : perform display state r = .ok next) :
    Refuses display state r ↔ Free state r := by
  constructor
  · intro refuses source target taken rest ends took
    by_contra held
    obtain ⟨refusal, refused⟩ := refuses source target taken rest ends took held
    rw [done] at refused
    cases refused
  · intro free source target taken rest ends took held
    exact absurd (free source target taken rest ends took) held

/-- A rule keeps every value it does not name. -/
theorem perform_keeps {r : Instruction} (done : perform display state r = .ok next)
    (free : Free state r) (h : Holds state path value) (atomic : Atomic value)
    (unnamed : ¬ r.Names path)
    (unopened : value = .object [] → ∀ spot key, r.source = some spot → spot.path ≠ path ++ [key]) :
    Holds next path value := by
  have carried : ∀ source target, r.ends = some (source, target) → r.source = some source →
      Holds next path value := by
    intro source target ends named
    cases took : extract state source.1 source.2 with
    | none =>
      rw [perform_absent ends took done]
      exact h
    | some pair =>
      obtain ⟨taken, rest⟩ := pair
      obtain ⟨put, rule, -, inserted⟩ := perform_ends ends took done
      refine holds_insert inserted (free source target taken rest ends took) ?_ atomic
      refine holds_extract took h atomic (fun above => unnamed ⟨source, named, above⟩) ?_
      intro none key
      exact unopened none source key named
  cases r with
  | rename old new => exact carried _ _ rfl rfl
  | move => exact carried _ _ rfl rfl
  | convert => exact carried _ _ rfl rfl
  | drop name =>
    simp only [perform, Except.ok.injEq] at done
    subst done
    simp only [applyDrop]
    cases took : extract state (splitPath name).1 (splitPath name).2 with
    | none => exact h
    | some pair =>
      obtain ⟨taken, rest⟩ := pair
      refine holds_extract took h atomic (fun above => unnamed ⟨splitPath name, rfl, above⟩) ?_
      intro none key
      exact unopened none (splitPath name) key rfl
  | backfill name default =>
    obtain rfl | ⟨top, member, rule, absent, inserted⟩ := backfill_cases done
    · exact h
    · exact holds_insert inserted absent h atomic

/-- What becomes of a value under the rules from a state on: it is kept or carried to where they
put it and is there at the end; or a convert answers for the value it is part of, and the answer is
there instead; or a drop names it; or, an empty object, a rule takes out what another put into it. -/
inductive Settles (display : Serde → String) (out : State) :
    State → List Instruction → List String → Serde → Prop
  | arrived {s : State} {path : List String} {value : Serde} : Holds out path value →
      Settles display out s [] path value
  | kept {s t : State} {r : Instruction} {rules : List Instruction} {path : List String}
      {value : Serde} : ¬ r.Names path → perform display s r = .ok t →
      Settles display out t rules path value → Settles display out s (r :: rules) path value
  | carried {s t : State} {r : Instruction} {rules : List Instruction} {source target : Spot}
      {below : List String} {value : Serde} : r.ends = some (source, target) →
      r.answer = some → perform display s r = .ok t →
      Settles display out t rules (target.path ++ below) value →
        Settles display out s (r :: rules) (source.path ++ below) value
  | converted {s t : State} {source target : String} {values : List Serde}
      {rules : List Instruction} {whole answer : Serde} {below : List String} {value : Serde} :
      valueAt s (Spot.path (splitPath source)) = some whole → mapped values whole = some answer →
      perform display s (.convert source target values) = .ok t →
      valueAt t (Spot.path (splitPath target)) = some answer →
      (∀ inner leaf, within answer inner = some leaf → Atomic leaf →
        Settles display out t rules (Spot.path (splitPath target) ++ inner) leaf) →
        Settles display out s (.convert source target values :: rules)
          (Spot.path (splitPath source) ++ below) value
  | dropped {s : State} {name : String} {rules : List Instruction} {below : List String}
      {value : Serde} :
      Settles display out s (.drop name :: rules) (Spot.path (splitPath name) ++ below) value
  | opened {s : State} {r : Instruction} {rules : List Instruction} {path : List String}
      {spot : Spot} {key : String} : r.source = some spot → spot.path = path ++ [key] →
      Settles display out s (r :: rules) path (.object [])

theorem Holds.of_leaf {inner : List String} {leaf : Serde} (reached : valueAt state path = some value)
    (below : within value inner = some leaf) (some' : path ≠ []) :
    Holds state (path ++ inner) leaf := by
  refine ⟨leaf, ?_, .inl rfl⟩
  rw [valueAt_append state some', reached, Option.bind_some, below]

/-- Where every rule finds its destination free, every value settles. -/
theorem settles_run {out : State} {rules : List Instruction}
    (run : rules.foldlM (perform display) state = .ok out)
    (free : Along (perform display) Free rules state) (h : Holds state path value)
    (atomic : Atomic value) : Settles display out state rules path value := by
  induction rules generalizing state path value with
  | nil =>
    cases run
    exact .arrived h
  | cons r rules ih =>
    rw [List.foldlM_cons] at run
    obtain ⟨next, done, later⟩ := Reading.bind_eq_ok.mp run
    obtain ⟨here, after⟩ := free
    by_cases opened : value = .object [] ∧ ∃ spot key, r.source = some spot ∧ spot.path = path ++ [key]
    · obtain ⟨rfl, spot, key, named, eq⟩ := opened
      exact .opened named eq
    by_cases named : r.Names path
    · obtain ⟨spot, from', below, rfl⟩ := named
      obtain ⟨whole, stored⟩ := h.above spot.path_ne_nil
      obtain ⟨rest, took⟩ := extract_some_iff.mpr stored
      have landed : ∀ target, r.ends = some (spot, target) → ∃ put, r.answer whole = some put ∧
          valueAt next target.path = some put := by
        intro target ends
        obtain ⟨put, rule, answer, inserted⟩ := perform_ends ends took done
        exact ⟨put, answer, valueAt_insert inserted⟩
      have moved : ∀ target, r.ends = some (spot, target) → r.answer = some →
          Settles display out state (r :: rules) (spot.path ++ below) value := by
        intro target ends plain
        obtain ⟨put, answer, there⟩ := landed target ends
        rw [plain] at answer
        cases answer
        refine .carried ends plain done (ih later (after next done) ?_ atomic)
        obtain ⟨found, reached, meets⟩ := h
        refine ⟨found, ?_, meets⟩
        rw [valueAt_append _ spot.path_ne_nil, stored] at reached
        rw [valueAt_append _ target.path_ne_nil, there]
        exact reached
      cases r with
      | rename old new =>
        cases from'
        exact moved _ rfl rfl
      | move =>
        cases from'
        exact moved _ rfl rfl
      | convert =>
        cases from'
        obtain ⟨put, answer, there⟩ := landed _ rfl
        refine .converted stored answer done there ?_
        intro inner leaf reached leafy
        exact ih later (after next done) (.of_leaf there reached (Spot.path_ne_nil _)) leafy
      | drop name =>
        cases from'
        exact .dropped
      | backfill => cases from'
    · refine .kept named done (ih later (after next done) ?_ atomic)
      refine perform_keeps done here h atomic named ?_
      intro none spot key from' eq
      exact opened ⟨none, spot, key, from', eq⟩

theorem along_iff {rules : List Instruction} {out : State}
    (run : rules.foldlM (perform display) state = .ok out) :
    Along (perform display) (Refuses display) rules state ↔
      Along (perform display) Free rules state := by
  induction rules generalizing state with
  | nil => exact Iff.rfl
  | cons r rules ih =>
    rw [List.foldlM_cons] at run
    obtain ⟨next, done, later⟩ := Reading.bind_eq_ok.mp run
    have same : ∀ t, perform display state r = .ok t → t = next := by
      intro t result
      rw [done] at result
      cases result
      rfl
    constructor
    · rintro ⟨here, after⟩
      refine ⟨(refuses_iff_free done).mp here, ?_⟩
      intro t result
      rw [same t result]
      exact (ih later).mp (after next done)
    · rintro ⟨here, after⟩
      refine ⟨(refuses_iff_free done).mpr here, ?_⟩
      intro t result
      rw [same t result]
      exact (ih later).mpr (after next done)

/-- Of a state that is accepted every value settles, and a rename, move or convert that finds its
destination held refuses, exactly when each of them finds its destination free. -/
theorem discards_nothing_iff (display : Serde → String) (raw : Serde) (state out : State)
    (accepted : translate display raw state = .ok out) :
    ((∀ top value inner leaf, state top = some value → within value inner = some leaf →
        Atomic leaf → Settles display out state (instructions raw) (top :: inner) leaf) ∧
      Along (perform display) (Refuses display) (instructions raw) state) ↔
    Along (perform display) Free (instructions raw) state := by
  rw [translate_instructions] at accepted
  rw [along_iff accepted]
  refine ⟨And.right, fun free => ⟨?_, free⟩⟩
  intro top value inner leaf stored reached leafy
  refine settles_run accepted free ⟨leaf, ?_, .inl rfl⟩ leafy
  rw [valueAt, stored]
  exact reached

/-- One move from `a` to `b`. -/
def ontoHeld : Serde :=
  .object [("moves", .array [.object [("from", .string "a"), ("to", .string "b")]])]

def bothHeld : State := stateOf (.object [("a", .number "1"), ("b", .number "2")])

/-- The move lands on a key that holds a value: it is accepted, and the value there is gone. -/
theorem move_overwrites :
    translate (fun _ => "") ontoHeld bothHeld =
        .ok ((bothHeld.delete "a").put "b" (.number "1")) ∧
      ¬ Settles (fun _ => "") ((bothHeld.delete "a").put "b" (.number "1")) bothHeld
        (instructions ontoHeld) ["b"] (.number "2") ∧
      ¬ Along (perform fun _ => "") (Refuses fun _ => "") (instructions ontoHeld) bothHeld := by
  have listed : instructions ontoHeld = [.move "a" "b"] := rfl
  refine ⟨rfl, ?_, ?_⟩
  · rw [listed]
    intro settles
    generalize named : ["b"] = path at settles
    generalize told : Serde.number "2" = value at settles
    cases settles with
    | kept _ done later =>
      cases done
      cases later with
      | arrived there =>
        obtain ⟨found, reached, meets⟩ := there
        rw [← named] at reached
        cases reached
        rw [← told] at meets
        obtain same | ⟨none, -⟩ := meets
        · simp at same
        · cases none
    | carried ends _ _ _ =>
      cases ends
      exact absurd (List.head_eq_of_cons_eq named) (by decide)
    | opened _ _ => cases told
  · rw [listed]
    rintro ⟨refuses, -⟩
    obtain ⟨refusal, refused⟩ :=
      refuses ("a", none) ("b", none) (.number "1") (bothHeld.delete "a") rfl rfl (by
        intro none
        cases none)
    cases refused

/-- A rename to a free name. -/
theorem rename_settles :
    ((∀ top value inner leaf, bothHeld top = some value → within value inner = some leaf →
        Atomic leaf → Settles (fun _ => "") ((bothHeld.delete "a").put "c" (.number "1")) bothHeld
          (instructions (.object [("renames", .object [("a", .string "c")])])) (top :: inner) leaf) ∧
      Along (perform fun _ => "") (Refuses fun _ => "")
        (instructions (.object [("renames", .object [("a", .string "c")])])) bothHeld) ↔
    Along (perform fun _ => "") Free
      (instructions (.object [("renames", .object [("a", .string "c")])])) bothHeld :=
  discards_nothing_iff (fun _ => "") (.object [("renames", .object [("a", .string "c")])]) bothHeld
    ((bothHeld.delete "a").put "c" (.number "1")) rfl

end Hecks.Era.Reference
