import Hecks.Era.Rules
import Hecks.Lib.Unfolding

/-! The held attribute paths that vanished or changed type, and which of them an edge explains. -/
namespace Hecks.Era

structure Attribute where
  name : String
  type : String
  list : Bool

inductive ContainerKind where
  | valueObject
  | entity
deriving DecidableEq

/-- A value object or an entity. -/
structure Container where
  kind : ContainerKind
  name : String
  attributes : List Attribute

structure Aggregate where
  attributes : List Attribute
  containers : List Container

/-- A Hash of the entries by their names keeps the last of one name. -/
def lastNamed {α : Type} (name : α → String) (entries : List α) (named : String) : Option α :=
  (entries.filter fun e => name e == named).getLast?

/-- A value object finds its first member of a name, an entity has its members in a Hash. -/
def Container.attribute (c : Container) (named : String) : Option Attribute :=
  match c.kind with
  | .valueObject => c.attributes.find? fun a => a.name == named
  | .entity => lastNamed Attribute.name c.attributes named

def Aggregate.attribute (a : Aggregate) (named : String) : Option Attribute :=
  lastNamed Attribute.name a.attributes named

/-- The value object of that name, which a Hash holds, else the first entity. -/
def nestedType (a : Aggregate) (typeName : String) : Option Container :=
  (lastNamed Container.name (a.containers.filter fun c => c.kind == .valueObject) typeName).or
    ((a.containers.filter fun c => c.kind == .entity).find? fun c => c.name == typeName)

theorem mem_of_lastNamed {α : Type} {name : α → String} {entries : List α} {named : String}
    {e : α} (h : lastNamed name entries named = some e) : e ∈ entries ∧ name e = named := by
  have mem := List.mem_filter.mp (List.mem_of_getLast? h)
  exact ⟨mem.1, by simpa using mem.2⟩

theorem mem_containers {a : Aggregate} {typeName : String} {c : Container}
    (h : nestedType a typeName = some c) : typeName ∈ a.containers.map Container.name := by
  rcases Option.or_eq_some_iff.mp h with found | ⟨-, found⟩
  · obtain ⟨mem, rfl⟩ := mem_of_lastNamed found
    exact List.mem_map_of_mem (List.mem_filter.mp mem).1
  · have same := List.find?_some found
    have mem := List.mem_filter.mp (List.mem_of_find?_eq_some found)
    simp only [beq_iff_eq] at same
    exact same ▸ List.mem_map_of_mem mem.1

/-! ### The rules of an edge -/

/-- One edge's rules for an aggregate: its field rules, and the type names it declares to mean
the same shape. -/
structure Lineage where
  rules : FieldRules
  retypes : List (String × String)

namespace Lineage

def retype (l : Lineage) (heldType currentType : String) : Bool :=
  l.retypes.any fun r => r.1 == heldType && r.2 == currentType

/-- Every path a move, convert or drop reads from. -/
def sources (l : Lineage) : List String :=
  l.rules.moves.map (·.source.text) ++ l.rules.converts.map (·.source.text) ++
    l.rules.drops.map (·.text)

def backfilled (l : Lineage) (name : String) : Bool :=
  l.rules.backfills.any fun b => b.name.text == name

/-- Whether some rule accounts for a held path that vanished or changed type. -/
def explains (l : Lineage) (path : String) : Bool :=
  let top := Text.firstSegment "." path
  l.rules.renames.any (fun r => r.1 == top) ||
    l.sources.any (fun s => s == path || Text.firstSegment "." s == top) || l.backfilled top

end Lineage

/-! ### The diff -/

/-- The held and current aggregates being compared, with the lineage that may explain drift. -/
structure Sides where
  held : Aggregate
  current : Aggregate
  lineage : Option Lineage

/-- A declared retype accepts the pair, but members are still compared. -/
def Sides.retypeDrift (s : Sides) (heldType currentType : String) : Bool :=
  heldType != currentType && !s.lineage.any fun l => l.retype heldType currentType

/-- Compares one path's held and current types, recursing into shared members. -/
def diffType (s : Sides) (path heldType currentType : String) (seen : List String) :
    List String :=
  if s.retypeDrift heldType currentType then [path]
  else if already : seen.contains currentType = true then []
  else
    match nestedType s.held heldType with
    | none => []
    | some heldContainer =>
        match found : nestedType s.current currentType with
        | none => []
        | some currentContainer =>
            heldContainer.attributes.flatMap fun heldMember =>
              match currentContainer.attribute heldMember.name with
              | none => [path ++ "." ++ heldMember.name]
              | some currentMember =>
                  diffType s (path ++ "." ++ heldMember.name) heldMember.type currentMember.type
                    (seen ++ [currentType])
termination_by Unfolding.unseen (s.current.containers.map Container.name) seen
decreasing_by exact Unfolding.unseen_lt (mem_containers found) already

/-- The paths of the whole held aggregate, explained or not. -/
def driftedPaths (s : Sides) : List String :=
  s.held.attributes.flatMap fun heldAttribute =>
    match s.current.attribute heldAttribute.name with
    | none => [heldAttribute.name]
    | some currentAttribute =>
        diffType s heldAttribute.name heldAttribute.type currentAttribute.type []

/-- Held attribute paths that vanished or changed type with no rule explaining them. -/
def uncoveredAttributes (current held : Aggregate) (lineage : Option Lineage) : List String :=
  let paths := driftedPaths ⟨held, current, lineage⟩
  match lineage with
  | none => paths
  | some l => paths.filter fun path => !l.explains path

/-! ### What is lost -/

/-- An attribute of the held shape and the names that lead to it. -/
inductive HeldAt (held : Aggregate) : List String → Attribute → Prop
  | top {a : Attribute} (mem : a ∈ held.attributes) : HeldAt held [a.name] a
  | member {names : List String} {a m : Attribute} {c : Container} (above : HeldAt held names a)
      (found : nestedType held a.type = some c) (mem : m ∈ c.attributes) :
      HeldAt held (names ++ [m.name]) m

/-- What the names lead to from an attribute of the aggregate. -/
def memberAt (a : Aggregate) (b : Attribute) : List String → Option Attribute
  | [] => some b
  | name :: names =>
      (nestedType a b.type).bind fun c => (c.attribute name).bind fun m => memberAt a m names

/-- The attribute those names lead to in the current shape. -/
def currentAt (current : Aggregate) : List String → Option Attribute
  | [] => none
  | name :: names => (current.attribute name).bind fun b => memberAt current b names

/-- A held attribute path that is missing from the current shape, or whose type or list form
differs there. -/
def Lost (s : Sides) (names : List String) : Prop :=
  ∃ a, HeldAt s.held names a ∧
    ∀ b, currentAt s.current names = some b → a.type ≠ b.type ∨ a.list ≠ b.list

/-- The path is the source of a rename, move, convert or drop, or lies below one. -/
def Covered (lineage : Option Lineage) (names : List String) : Prop :=
  ∃ l, lineage = some l ∧ ∃ source ∈ l.rules.renames.map (·.1) ++ l.sources,
    source = Text.join "." names ∨
      (source ++ ".").toList <+: (Text.join "." names).toList

/-- From a type of either side, read with these types above, the diff comes on these names to a
member that is gone or whose type is another: the types on the way are the same or declared to
be, and none of them comes twice. -/
inductive Sighted (s : Sides) : List String → String → String → List String → Prop
  | drift {seen : List String} {heldType currentType : String}
      (drift : s.retypeDrift heldType currentType = true) :
      Sighted s seen heldType currentType []
  | gone {seen : List String} {heldType currentType : String} {h c : Container} {m : Attribute}
      (same : s.retypeDrift heldType currentType = false) (fresh : currentType ∉ seen)
      (held : nestedType s.held heldType = some h)
      (current : nestedType s.current currentType = some c) (mem : m ∈ h.attributes)
      (missing : c.attribute m.name = none) : Sighted s seen heldType currentType [m.name]
  | inside {seen : List String} {heldType currentType : String} {h c : Container}
      {m n : Attribute} {names : List String}
      (same : s.retypeDrift heldType currentType = false) (fresh : currentType ∉ seen)
      (held : nestedType s.held heldType = some h)
      (current : nestedType s.current currentType = some c) (mem : m ∈ h.attributes)
      (named : c.attribute m.name = some n)
      (rest : Sighted s (seen ++ [currentType]) m.type n.type names) :
      Sighted s seen heldType currentType (m.name :: names)

/-- The diff comes to the path. -/
inductive InSight (s : Sides) : List String → Prop
  | gone {a : Attribute} (mem : a ∈ s.held.attributes)
      (missing : s.current.attribute a.name = none) : InSight s [a.name]
  | inside {a b : Attribute} {names : List String} (mem : a ∈ s.held.attributes)
      (found : s.current.attribute a.name = some b) (rest : Sighted s [] a.type b.type names) :
      InSight s (a.name :: names)

/-- A rule accounts for the path to the check: one that names the path or anything else under its
top-level attribute, or a backfill of that. -/
def Excused (lineage : Option Lineage) (names : List String) : Prop :=
  ∃ l, lineage = some l ∧ l.explains (Text.join "." names) = true

/-! ### What the diff reports -/

/-- The dotted text of a path with more names under it. -/
def under (path : String) : List String → String
  | [] => path
  | name :: names => under (path ++ "." ++ name) names

theorem under_append (front path : String) (names : List String) :
    under (front ++ path) names = front ++ under path names := by
  induction names generalizing path with
  | nil => rfl
  | cons name names ih =>
    have assoc : front ++ path ++ "." ++ name = front ++ (path ++ "." ++ name) := by
      rw [String.append_assoc, String.append_assoc, String.append_assoc]
    rw [under, under, assoc, ih]

theorem join_eq_under (name : String) (names : List String) :
    Text.join "." (name :: names) = under name names := by
  induction names generalizing name with
  | nil => rfl
  | cons next names ih =>
    rw [Text.join, ih, under, under_append]
    exact List.cons_ne_nil _ _

section

variable {s : Sides} {seen : List String} {path heldType currentType : String}

theorem diffType_drift (h : s.retypeDrift heldType currentType = true) :
    diffType s path heldType currentType seen = [path] := by
  rw [diffType, if_pos h]

theorem diffType_members {h c : Container} (same : s.retypeDrift heldType currentType = false)
    (fresh : currentType ∉ seen) (held : nestedType s.held heldType = some h)
    (current : nestedType s.current currentType = some c) :
    diffType s path heldType currentType seen = h.attributes.flatMap fun m =>
      (c.attribute m.name).elim [path ++ "." ++ m.name] fun n =>
        diffType s (path ++ "." ++ m.name) m.type n.type (seen ++ [currentType]) := by
  rw [diffType, if_neg (by simp [same]), dif_neg (by simpa using fresh), held]
  dsimp only
  split
  · rename_i missing
    cases current.symm.trans missing
  · rename_i c' found
    cases current.symm.trans found
    congr 1
    funext m
    cases c.attribute m.name with
    | none => rfl
    | some n => rfl

/-- Whatever is in sight below a type is reported under its path. -/
theorem Sighted.reported {names : List String} (h : Sighted s seen heldType currentType names)
    (path : String) : under path names ∈ diffType s path heldType currentType seen := by
  induction h generalizing path with
  | drift drift =>
    rw [diffType_drift drift]
    exact List.mem_cons_self
  | gone same fresh held current mem missing =>
    rw [diffType_members same fresh held current]
    refine List.mem_flatMap.mpr ⟨_, mem, ?_⟩
    rw [missing]
    exact List.mem_cons_self
  | inside same fresh held current mem named rest ih =>
    rw [diffType_members same fresh held current]
    refine List.mem_flatMap.mpr ⟨_, mem, ?_⟩
    rw [named]
    exact ih (path ++ "." ++ _)

/-- Whatever is reported under a path is in sight there. -/
theorem sighted_of_reported {reported : String}
    (h : reported ∈ diffType s path heldType currentType seen) :
    ∃ names, Sighted s seen heldType currentType names ∧ reported = under path names := by
  induction size : Unfolding.unseen (s.current.containers.map Container.name) seen using
    Nat.strong_induction_on generalizing seen path heldType currentType with
  | _ left ih =>
    by_cases drift : s.retypeDrift heldType currentType = true
    · rw [diffType_drift drift] at h
      exact ⟨[], .drift drift, List.mem_singleton.mp h⟩
    have same : s.retypeDrift heldType currentType = false := by simpa using drift
    by_cases already : currentType ∈ seen
    · rw [diffType, if_neg drift, dif_pos (by simpa using already)] at h
      cases h
    cases held : nestedType s.held heldType with
    | none =>
      rw [diffType, if_neg drift, dif_neg (by simpa using already), held] at h
      cases h
    | some hc =>
      cases current : nestedType s.current currentType with
      | none =>
        rw [diffType, if_neg drift, dif_neg (by simpa using already), held] at h
        dsimp only at h
        split at h
        · cases h
        · rename_i found
          cases current.symm.trans found
      | some cc =>
        rw [diffType_members same already held current] at h
        obtain ⟨m, mem, here⟩ := List.mem_flatMap.mp h
        cases named : cc.attribute m.name with
        | none =>
          rw [named] at here
          exact ⟨[m.name], .gone same already held current mem named, List.mem_singleton.mp here⟩
        | some n =>
          rw [named] at here
          have smaller : Unfolding.unseen (s.current.containers.map Container.name)
              (seen ++ [currentType]) < left := by
            rw [← size]
            exact Unfolding.unseen_lt (mem_containers current) (by simpa using already)
          obtain ⟨names, rest, text⟩ := ih _ smaller here rfl
          exact ⟨m.name :: names, .inside same already held current mem named rest, text⟩

theorem InSight.reported {names : List String} (h : InSight s names) :
    Text.join "." names ∈ driftedPaths s := by
  cases h with
  | gone mem missing =>
    refine List.mem_flatMap.mpr ⟨_, mem, ?_⟩
    rw [missing]
    exact List.mem_cons_self
  | inside mem found rest =>
    refine List.mem_flatMap.mpr ⟨_, mem, ?_⟩
    rw [found, join_eq_under]
    exact rest.reported _

end

/-- The diff reports what is in sight, and nothing else. -/
theorem mem_driftedPaths {s : Sides} {path : String} :
    path ∈ driftedPaths s ↔ ∃ names, InSight s names ∧ path = Text.join "." names := by
  constructor
  · intro h
    obtain ⟨a, mem, here⟩ := List.mem_flatMap.mp h
    cases found : s.current.attribute a.name with
    | none =>
      rw [found] at here
      exact ⟨[a.name], .gone mem found, List.mem_singleton.mp here⟩
    | some b =>
      rw [found] at here
      obtain ⟨names, rest, text⟩ := sighted_of_reported here
      exact ⟨a.name :: names, .inside mem found rest, by rw [text, join_eq_under]⟩
  · rintro ⟨names, sight, rfl⟩
    exact sight.reported

/-- Nothing is uncovered exactly where whatever is in sight is excused. -/
theorem uncovered_eq_nil_iff (current held : Aggregate) (lineage : Option Lineage) :
    uncoveredAttributes current held lineage = [] ↔
      ∀ names, InSight ⟨held, current, lineage⟩ names → Excused lineage names := by
  cases lineage with
  | none =>
    constructor
    · intro none names sight
      have reported := sight.reported
      rw [show driftedPaths ⟨held, current, Option.none⟩ = [] from none] at reported
      cases reported
    · intro excused
      apply List.eq_nil_iff_forall_not_mem.mpr
      intro path reported
      obtain ⟨names, sight, -⟩ := mem_driftedPaths.mp reported
      obtain ⟨l, absent, -⟩ := excused names sight
      cases absent
  | some l =>
    constructor
    · intro none names sight
      have kept := List.filter_eq_nil_iff.mp none _ sight.reported
      exact ⟨l, rfl, by simpa using kept⟩
    · intro excused
      apply List.filter_eq_nil_iff.mpr
      intro path reported
      obtain ⟨names, sight, rfl⟩ := mem_driftedPaths.mp reported
      obtain ⟨l', same, explained⟩ := excused names sight
      cases same
      simpa using explained

/-- Nothing held goes unexplained exactly when the diff, wherever a path is lost that no source
covers, comes to some path that no rule excuses. -/
theorem losses_explained_iff (current held : Aggregate) (lineage : Option Lineage) :
    (uncoveredAttributes current held lineage = [] →
        ∀ names, Lost ⟨held, current, lineage⟩ names → Covered lineage names) ↔
      ∀ names, Lost ⟨held, current, lineage⟩ names → ¬Covered lineage names →
        ∃ path, InSight ⟨held, current, lineage⟩ path ∧ ¬Excused lineage path := by
  constructor
  · intro explained names lost uncovered
    by_contra excused
    apply uncovered
    apply explained ((uncovered_eq_nil_iff current held lineage).mpr _) names lost
    intro path sight
    by_contra unexcused
    exact excused ⟨path, sight, unexcused⟩
  · intro seen none names lost
    by_contra uncovered
    obtain ⟨path, sight, unexcused⟩ := seen names lost uncovered
    exact unexcused ((uncovered_eq_nil_iff current held lineage).mp none path sight)

/-- A price with an amount and a currency, of which only the amount is still there. -/
def money (members : List String) : Aggregate :=
  ⟨[⟨"price", "Money", false⟩],
    [⟨.valueObject, "Money", members.map fun name => ⟨name, "String", false⟩⟩]⟩

/-- The amount is moved, the currency is not mentioned. -/
def amountMoved : Lineage :=
  ⟨⟨[], [⟨⟨"price.amount", by simp⟩, ⟨"price.amount", by simp⟩⟩], [], [], [], [], List.nodup_nil⟩,
    []⟩

/-- Only the currency comes into sight. -/
theorem sighted_money {names : List String}
    (h : InSight ⟨money ["amount", "currency"], money ["amount"], some amountMoved⟩ names) :
    names = ["price", "currency"] := by
  cases h with
  | gone mem missing =>
    cases List.mem_singleton.mp mem
    cases missing
  | inside mem found rest =>
    cases List.mem_singleton.mp mem
    cases found
    cases rest with
    | drift drift => cases drift
    | gone same fresh held current mem missing =>
      cases held
      cases current
      rcases List.mem_cons.mp mem with rfl | mem
      · cases missing
      · cases List.mem_singleton.mp mem
        rfl
    | inside same fresh held current mem named rest =>
      cases held
      cases current
      rcases List.mem_cons.mp mem with rfl | mem
      · cases named
        cases rest with
        | drift drift => cases drift
        | gone same fresh held => cases held
        | inside same fresh held => cases held
      · cases List.mem_singleton.mp mem
        cases named

theorem sibling_excused :
    uncoveredAttributes (money ["amount"]) (money ["amount", "currency"]) (some amountMoved) = [] ∧
      ∃ names, Lost ⟨money ["amount", "currency"], money ["amount"], some amountMoved⟩ names ∧
        ¬Covered (some amountMoved) names := by
  constructor
  · apply (uncovered_eq_nil_iff _ _ _).mpr
    intro names sight
    rw [sighted_money sight]
    exact ⟨amountMoved, rfl, by decide⟩
  · refine ⟨["price", "currency"], ⟨⟨"currency", "String", false⟩, ?_, ?_⟩, ?_⟩
    · have mem : (⟨"price", "Money", false⟩ : Attribute) ∈
          (money ["amount", "currency"]).attributes := List.mem_cons_self
      exact (HeldAt.top mem).member rfl (List.mem_cons_of_mem _ List.mem_cons_self)
    · intro b there
      have missing : currentAt (money ["amount"]) ["price", "currency"] = none := rfl
      rw [missing] at there
      cases there
    · rintro ⟨l, same, source, mem, covers⟩
      cases same
      cases List.mem_singleton.mp mem
      revert covers
      decide

end Hecks.Era
