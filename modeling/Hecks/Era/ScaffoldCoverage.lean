import Hecks.Era.ScaffoldPaths

/-! When the scaffold asks about all that the guard demands, and guesses nothing. -/
namespace Hecks.Era.Scaffold

open StorageShape Unfolding

/-- The path itself or one of its ancestors. -/
def Above (source path : String) : Prop :=
  Text.segments '.' source <+: Text.segments '.' path

instance (source path : String) : Decidable (Above source path) :=
  inferInstanceAs (Decidable (_ <+: _))

/-- The path a rename, move or unresolved rule is about. -/
def Rule.about : Rule → Option String
  | .rename source _ => some source
  | .move source _ => some source
  | .unresolved (.path source) _ => some source
  | _ => none

/-- The rules about the path or one of its ancestors. -/
def rulesAbove (rules : List Rule) (path : String) : List Rule :=
  rules.filter fun r => r.about.any fun source => decide (Above source path)

variable (held current : Declared)

abbrev scaffolded : List Rule := attributeRules (projectAggregate held) (projectAggregate current)

/-- The type names some attribute was retyped from. -/
def retyped : List String :=
  retypedFrom (retypeRules (attributesByName (projectAggregate held))
    (attributesByName (projectAggregate current)))

/-- The changed paths of the held shape. -/
def vanished : Paths :=
  vanishedPaths (attributesByName (projectAggregate held))
    (attributesByName (projectAggregate current)) (retyped held current)

/-- The changed paths of the current shape. -/
def appeared : Paths :=
  appearedPaths (attributesByName (projectAggregate held))
    (attributesByName (projectAggregate current)) (retyped held current)

/-- The path belongs to an attribute whose types a retype rule declares to be one. -/
def Accepted (rules : List Rule) (path : String) : Prop :=
  ∃ a ∈ held.aggregate.attributes, ∃ b ∈ current.aggregate.attributes,
    a.name = b.name ∧ Above a.name path ∧ .retype a.type b.type ∈ rules

/-- The scaffold asks about every path the guard demands, and renames and moves only what is
alone of its signature and list form on its side, nothing onto one target twice. -/
structure Honest : Prop where
  asked : ∀ path ∈ uncoveredAttributes current.aggregate held.aggregate none,
    (rulesAbove (scaffolded held current) path).length = 1 ∨
      Accepted held current (scaffolded held current) path
  apart : (claimedTargets (scaffolded held current)).Nodup
  paired : ∀ source target,
    .rename source target ∈ scaffolded held current ∨
      .move source target ∈ scaffolded held current →
    ∃ signature list, PathOf (projectAggregate held) source signature list ∧
      PathOf (projectAggregate current) target signature list ∧
      Alone (vanished held current) (appeared held current) signature source target

/-- Some attribute has the one type in the held shape and the other in the current one, and they
differ in their names only. -/
def Renames (source target : String) : Prop :=
  ∃ a ∈ (projectAggregate held).attributes, ∃ b ∈ (projectAggregate current).attributes,
    a.name = b.name ∧ isRetyped a b = true ∧ a.type.root = source ∧ b.type.root = target

/-- An attribute whose type is another is retyped, and one whose type is renamed elsewhere is
neither gone nor changed under that type. -/
structure Answered : Prop where
  retyped : ∀ a ∈ held.aggregate.attributes, ∀ b, current.aggregate.attribute a.name = some b →
    a.type ≠ b.type → Renames held current a.type b.type
  gone : ∀ a ∈ held.aggregate.attributes, current.aggregate.attribute a.name = none →
    ∀ target, ¬Renames held current a.type target
  kept : ∀ a ∈ held.aggregate.attributes, ∀ b, current.aggregate.attribute a.name = some b →
    a.type = b.type → ∀ target, Renames held current a.type target →
    ∀ names, ¬Sighted ⟨held.aggregate, current.aggregate, none⟩ [] a.type b.type names

/-- Two changed paths, each alone of one signature on its side, are both lists or neither is. -/
def SameForm : Prop :=
  ∀ signature source target,
    Alone (vanished held current) (appeared held current) signature source target →
    ∀ list list', PathOf (projectAggregate held) source signature list →
      PathOf (projectAggregate current) target signature list' → list = list'

variable {held current}

/-! ### The rules in one piece -/

/-- The rules that are there before any path is resolved. -/
abbrev front (held current : Declared) : List Rule :=
  (identityHint (projectAggregate held) (projectAggregate current)).toList ++
    retypeRules (attributesByName (projectAggregate held))
      (attributesByName (projectAggregate current))

theorem front_cases {r : Rule} (h : r ∈ front held current) :
    r = .unresolved .identity [] ∨ ∃ source target, r = .retype source target := by
  cases List.mem_append.mp h with
  | inl mem =>
    unfold identityHint at mem
    split at mem
    · cases mem
    · exact Or.inl (List.mem_singleton.mp mem)
  | inr mem =>
    obtain ⟨e, -, found⟩ := List.mem_filterMap.mp mem
    split at found
    · cases found
    · split at found
      · exact Or.inr ⟨_, _, (Option.some.inj found).symm⟩
      · cases found

theorem claimed_front : claimedTargets (front held current) = [] := by
  apply List.filterMap_eq_nil_iff.mpr
  intro r mem
  obtain rfl | ⟨source, target, rfl⟩ := front_cases mem
  · rfl
  · rfl

theorem about_front {r : Rule} (h : r ∈ front held current) : r.about = none := by
  obtain rfl | ⟨source, target, rfl⟩ := front_cases h
  · rfl
  · rfl

theorem retypedFrom_front : retypedFrom (front held current) = retyped held current := by
  have hint : retypedFrom (identityHint (projectAggregate held)
      (projectAggregate current)).toList = [] := by
    unfold identityHint
    split
    · rfl
    · rfl
  unfold retypedFrom at hint ⊢
  rw [List.filterMap_append, hint, List.nil_append]
  rfl

theorem attributeRules_eq : scaffolded held current = front held current ++
    (vanished held current).entries.map
      (pairing (vanished held current) (appeared held current)) := by
  unfold scaffolded attributeRules
  dsimp only
  rw [retypedFrom_front]
  exact resolveVanishedRules_eq claimed_front

theorem about_moveOrRename (path target : String) : (moveOrRename path target).about = some path := by
  unfold moveOrRename
  split
  · rfl
  · rfl

/-- A changed path's rule is about that path. -/
theorem about_pairing (vanished appeared : Paths) (e : String × Signature) :
    (pairing vanished appeared e).about = some e.1 := by
  unfold pairing ruleFor
  dsimp only
  split
  · split
    · exact about_moveOrRename _ _
    · rfl
  · rfl
  · rfl

theorem mem_retypeRules {source target : String} :
    .retype source target ∈ retypeRules (attributesByName (projectAggregate held))
      (attributesByName (projectAggregate current)) ↔ Renames held current source target := by
  have neatHeld := neat_projectAggregate held
  have neatCurrent := neat_projectAggregate current
  unfold retypeRules
  rw [entries_attributesByName neatHeld, List.mem_filterMap]
  constructor
  · rintro ⟨e, mem, found⟩
    obtain ⟨a, declared, rfl⟩ := List.mem_map.mp mem
    split at found
    · cases found
    · rename_i b named
      obtain ⟨there, same⟩ := (get_attributesByName neatCurrent).mp named
      split at found
      · rename_i differs
        cases found
        exact ⟨a, declared, b, there, same.symm, differs, rfl, rfl⟩
      · cases found
  · rintro ⟨a, declared, b, there, same, differs, rfl, rfl⟩
    refine ⟨(a.name, a), List.mem_map_of_mem declared, ?_⟩
    dsimp only
    rw [(get_attributesByName neatCurrent).mpr ⟨there, same.symm⟩]
    dsimp only
    rw [if_pos differs]

theorem mem_retyped {source : String} :
    source ∈ retyped held current ↔ ∃ target, Renames held current source target := by
  unfold retyped retypedFrom
  rw [List.mem_filterMap]
  constructor
  · rintro ⟨r, mem, found⟩
    split at found
    · cases found
      exact ⟨_, mem_retypeRules.mp mem⟩
    · cases found
  · rintro ⟨target, renames⟩
    exact ⟨_, mem_retypeRules.mpr renames, rfl⟩

theorem retype_mem_scaffolded {source target : String} :
    .retype source target ∈ scaffolded held current ↔ Renames held current source target := by
  rw [← mem_retypeRules, attributeRules_eq]
  constructor
  · intro mem
    cases List.mem_append.mp mem with
    | inl front =>
      cases List.mem_append.mp front with
      | inl hint =>
        unfold identityHint at hint
        split at hint
        · cases hint
        · cases List.mem_singleton.mp hint
      | inr found => exact found
    | inr back =>
      obtain ⟨e, -, same⟩ := List.mem_map.mp back
      have about := about_pairing (vanished held current) (appeared held current) e
      rw [same] at about
      cases about
  · intro mem
    exact List.mem_append_left _ (List.mem_append_right _ mem)

/-- The rules above a path are those of the changed paths above it. -/
theorem length_rulesAbove (path : String) : (rulesAbove (scaffolded held current) path).length =
    ((vanished held current).entries.filter fun e => decide (Above e.1 path)).length := by
  have none : (front held current).filter
      (fun r => r.about.any fun source => decide (Above source path)) = [] := by
    apply List.filter_eq_nil_iff.mpr
    intro r mem
    rw [about_front mem]
    exact Bool.false_ne_true
  rw [rulesAbove, attributeRules_eq, List.filter_append, none, List.nil_append, List.filter_map,
    List.length_map]
  congr 2
  funext e
  rw [Function.comp_apply, about_pairing]
  rfl

/-! ### The changed paths above a path -/

theorem entries_vanished : (vanished held current).entries =
    (projectAggregate held).attributes.flatMap
      (changes (projectAggregate current) (retyped held current)) :=
  entries_unmatchedPaths (neat_projectAggregate held)

theorem entries_appeared : (appeared held current).entries =
    (projectAggregate current).attributes.flatMap
      (changes (projectAggregate held) (retyped held current)) :=
  entries_unmatchedPaths (neat_projectAggregate current)

/-- Where one entry of a list adds anything, that is the whole. -/
theorem flatMap_eq_of_single {α β : Type} {f : α → List β} {xs : List α} {x : α}
    (once : xs.Nodup) (mem : x ∈ xs) (others : ∀ y ∈ xs, y ≠ x → f y = []) :
    xs.flatMap f = f x := by
  induction xs with
  | nil => cases mem
  | cons y xs ih =>
    obtain ⟨fresh, rest⟩ := List.nodup_cons.mp once
    rw [List.flatMap_cons]
    cases List.mem_cons.mp mem with
    | inl here =>
      subst here
      have none : xs.flatMap f = [] := by
        apply List.flatMap_eq_nil_iff.mpr
        intro y there
        exact others y (List.mem_cons_of_mem _ there) fun same => fresh (same ▸ there)
      rw [none, List.append_nil]
    | inr later =>
      have ne : y ≠ x := fun same => fresh (same ▸ later)
      rw [others y List.mem_cons_self ne, List.nil_append]
      exact ih rest later fun z there => others z (List.mem_cons_of_mem _ there)

/-- Only the attribute a path starts with adds changed paths above it. -/
theorem vanished_above {a : Era.Attribute} (mem : a ∈ held.aggregate.attributes) {path : String}
    {names : List String} (pieces : Text.segments '.' path = a.name :: names) :
    ((vanished held current).entries.filter fun e => decide (Above e.1 path)) =
      (changes (projectAggregate current) (retyped held current)
        (projectAttribute held.aggregate a [])).filter fun e => decide (Above e.1 path) := by
  have neat := neat_projectAggregate held
  have there : projectAttribute held.aggregate a [] ∈ (projectAggregate held).attributes :=
    mem_projectAggregate.mpr ⟨a, mem, rfl⟩
  rw [entries_vanished, List.filter_flatMap]
  refine flatMap_eq_of_single (List.Nodup.of_map _ neat.once) there ?_
  intro b other ne
  apply List.filter_eq_nil_iff.mpr
  intro e change above
  apply ne
  apply eq_of_name neat other there
  have front := of_decide_eq_true above
  unfold Above at front
  rw [pieces] at front
  obtain whole | ⟨m, member⟩ := (path_of_change neat other change).2
  · rw [whole] at front
    exact (List.cons_prefix_cons.mp front).1
  · rw [member] at front
    exact (List.cons_prefix_cons.mp front).1

/-! ### What the guard sees, in the shapes -/

theorem retypeDrift_iff {a b : Aggregate} {heldType currentType : String} :
    Sides.retypeDrift ⟨a, b, none⟩ heldType currentType = true ↔ heldType ≠ currentType := by
  simp [Sides.retypeDrift]

theorem eq_of_no_drift {a b : Aggregate} {heldType currentType : String}
    (h : Sides.retypeDrift ⟨a, b, none⟩ heldType currentType = false) :
    heldType = currentType := by
  by_contra differ
  rw [retypeDrift_iff.mpr differ] at h
  cases h

theorem sighted_dotless {seen : List String} {heldType currentType : String}
    {names : List String}
    (h : Sighted ⟨held.aggregate, current.aggregate, none⟩ seen heldType currentType names) :
    ∀ n ∈ names, '.' ∉ n.toList := by
  induction h with
  | drift drift =>
    intro n mem
    cases mem
  | gone same fresh found declared mem missing =>
    intro n listed
    cases List.mem_singleton.mp listed
    exact (held.plain_of_nested (held.nestedType_eq ▸ found)).dotless _ mem
  | inside same fresh found declared mem named rest ih =>
    intro n listed
    cases List.mem_cons.mp listed with
    | inl here =>
      rw [here]
      exact (held.plain_of_nested (held.nestedType_eq ▸ found)).dotless _ mem
    | inr later => exact ih n later

/-- A member written out in one shape is in the other, where the two write the type the same. -/
theorem exists_member {d e : Declared} {typeName : String} {seen : List String}
    {c k : Container} (fresh : typeName ∉ seen)
    (inD : StorageShape.nestedType d.aggregate typeName = some c)
    (inE : StorageShape.nestedType e.aggregate typeName = some k)
    (same : typeSignature d.aggregate typeName seen = typeSignature e.aggregate typeName seen)
    {m : Era.Attribute} (mem : m ∈ c.attributes) :
    ∃ n ∈ k.attributes, labelOf n = labelOf m ∧
      typeSignature e.aggregate n.type (seen ++ [typeName]) =
        typeSignature d.aggregate m.type (seen ++ [typeName]) := by
  rw [typeSignature_declared inD fresh, typeSignature_declared inE fresh] at same
  have members := (Tree.node.inj same).2
  have listed : (labelOf m, typeSignature d.aggregate m.type (seen ++ [typeName])) ∈
      (byName c.attributes).map fun m =>
        (labelOf m, typeSignature d.aggregate m.type (seen ++ [typeName])) :=
    List.mem_map_of_mem (mem_byName.mpr mem)
  rw [members] at listed
  obtain ⟨n, there, pair⟩ := List.mem_map.mp listed
  obtain ⟨label, type⟩ := Prod.mk.inj pair
  exact ⟨n, mem_byName.mp there, label, type⟩

/-- Whatever is in sight below two types is a difference of their signatures. -/
theorem signatures_ne_of_sighted {seen : List String} {heldType currentType : String}
    {names : List String}
    (h : Sighted ⟨held.aggregate, current.aggregate, none⟩ seen heldType currentType names) :
    typeSignature held.aggregate heldType seen ≠
      typeSignature current.aggregate currentType seen := by
  induction h with
  | drift drift =>
    intro same
    have roots := congrArg Tree.root same
    rw [root_typeSignature, root_typeSignature] at roots
    exact retypeDrift_iff.mp drift roots
  | gone same fresh found declared mem missing =>
    intro equal
    cases eq_of_no_drift same
    rw [held.nestedType_eq] at found
    rw [current.nestedType_eq] at declared
    obtain ⟨n, there, label, -⟩ := exists_member fresh found declared equal mem
    have named := (current.plain_of_nested declared).attribute_iff.mpr
      ⟨there, (Prod.mk.inj label).1⟩
    rw [missing] at named
    cases named
  | inside same fresh found declared mem named rest ih =>
    intro equal
    cases eq_of_no_drift same
    rw [held.nestedType_eq] at found
    rw [current.nestedType_eq] at declared
    obtain ⟨n, there, label, type⟩ := exists_member fresh found declared equal mem
    have named' := (current.plain_of_nested declared).attribute_iff.mpr
      ⟨there, (Prod.mk.inj label).1⟩
    cases named.symm.trans named'
    exact ih type.symm

/-! ### The changes of one attribute -/

theorem get_shape (d : Declared) (name : String) :
    (attributesByName (projectAggregate d)).get name =
      (d.aggregate.attribute name).map fun a => projectAttribute d.aggregate a [] := by
  have neat := neat_projectAggregate d
  cases found : d.aggregate.attribute name with
  | some a =>
    obtain ⟨mem, same⟩ := d.attribute_iff.mp found
    exact (get_attributesByName neat).mpr ⟨mem_projectAggregate.mpr ⟨a, mem, rfl⟩, same⟩
  | none =>
    cases there : (attributesByName (projectAggregate d)).get name with
    | none => rfl
    | some x =>
      obtain ⟨mem, same⟩ := (get_attributesByName neat).mp there
      obtain ⟨a, declared, rfl⟩ := mem_projectAggregate.mp mem
      have named := d.attribute_iff.mpr ⟨declared, same⟩
      rw [found] at named
      cases named

theorem get_members {d : Declared} {a : Era.Attribute} (mem : a ∈ d.aggregate.attributes)
    {c : Container} (declared : StorageShape.nestedType d.aggregate a.type = some c)
    {name : String} {signature : Signature} :
    (membersOf (projectAttribute d.aggregate a [])).get name = some signature ↔
      ∃ m ∈ c.attributes, m.name = name ∧
        typeSignature d.aggregate m.type [a.type] = signature := by
  have neat := neat_projectAggregate d
  have there : projectAttribute d.aggregate a [] ∈ (projectAggregate d).attributes :=
    mem_projectAggregate.mpr ⟨a, mem, rfl⟩
  have members : membersIn (projectAttribute d.aggregate a []).type =
      some ((byName c.attributes).map fun m =>
        (labelOf m, typeSignature d.aggregate m.type [a.type])) := by
    show membersIn (typeSignature d.aggregate a.type []) = _
    rw [typeSignature_declared declared List.not_mem_nil]
    rfl
  rw [get_membersOf neat there, members]
  constructor
  · rintro ⟨ms, whole, m, listed, name, signature⟩
    cases whole
    obtain ⟨member, inside, rfl⟩ := List.mem_map.mp listed
    exact ⟨member, mem_byName.mp inside, name, signature⟩
  · rintro ⟨m, inside, name, signature⟩
    exact ⟨_, rfl, _, List.mem_map_of_mem (mem_byName.mpr inside), name, signature⟩

/-- What is in sight below one type starts with a member that the two shapes hold differently. -/
theorem member_of_sighted {a b : Era.Attribute} {names : List String}
    (mem : a ∈ held.aggregate.attributes)
    (found : current.aggregate.attribute a.name = some b) (same : a.type = b.type)
    (sighted : Sighted ⟨held.aggregate, current.aggregate, none⟩ [] a.type b.type names) :
    ∃ m rest signature, names = m :: rest ∧
      (membersOf (projectAttribute held.aggregate a [])).get m = some signature ∧
      (membersOf (projectAttribute current.aggregate b [])).get m ≠ some signature := by
  have there := (current.attribute_iff.mp found).1
  cases sighted with
  | drift drift => exact absurd same (retypeDrift_iff.mp drift)
  | gone _ _ inHeld inCurrent inside missing =>
    rw [held.nestedType_eq] at inHeld
    rw [current.nestedType_eq] at inCurrent
    refine ⟨_, [], _, rfl, (get_members mem inHeld).mpr ⟨_, inside, rfl, rfl⟩, ?_⟩
    intro other
    obtain ⟨n, listed, name, -⟩ := (get_members there inCurrent).mp other
    have named := (current.plain_of_nested inCurrent).attribute_iff.mpr ⟨listed, name⟩
    rw [missing] at named
    cases named
  | inside _ _ inHeld inCurrent inside named rest =>
    rw [held.nestedType_eq] at inHeld
    rw [current.nestedType_eq] at inCurrent
    refine ⟨_, _, _, rfl, (get_members mem inHeld).mpr ⟨_, inside, rfl, rfl⟩, ?_⟩
    intro other
    obtain ⟨n, listed, name, type⟩ := (get_members there inCurrent).mp other
    have named' := (current.plain_of_nested inCurrent).attribute_iff.mpr ⟨listed, name⟩
    cases named.symm.trans named'
    rw [← same] at type
    apply signatures_ne_of_sighted rest
    rw [List.nil_append, ← same]
    exact type.symm

/-- The other shape has under an attribute's name what the other aggregate declares under it. -/
theorem get_counterpart (a : Era.Attribute) :
    (attributesByName (projectAggregate current)).get (projectAttribute held.aggregate a []).name =
      (current.aggregate.attribute a.name).map fun b => projectAttribute current.aggregate b [] :=
  get_shape current a.name

/-- What is retyped has containers of two names. -/
theorem Renames.types_ne {source target : String} (h : Renames held current source target) :
    source ≠ target := by
  obtain ⟨a, -, b, -, name, differs, rfl, rfl⟩ := h
  intro roots
  unfold isRetyped at differs
  simp only [Bool.and_eq_true, decide_eq_true_eq, beq_iff_eq] at differs
  obtain ⟨⟨⟨⟨ne, container⟩, container'⟩, members⟩, list⟩ := differs
  apply ne
  have types : a.type = b.type := by
    unfold isContainer at container container'
    cases inA : a.type with
    | leaf t =>
      rw [inA] at container
      cases container
    | node t ms =>
      cases inB : b.type with
      | leaf u =>
        rw [inB] at container'
        cases container'
      | node u ns =>
        rw [inA, inB] at members roots
        rw [Option.some.inj members]
        exact congrArg (Unfolding.Tree.node · ns) roots
  obtain ⟨nameA, listA, typeA⟩ := a
  obtain ⟨nameB, listB, typeB⟩ := b
  cases name
  cases list
  cases types
  rfl

theorem isSkipped_iff {a : Era.Attribute} :
    isSkipped (retyped held current) (projectAttribute held.aggregate a []) = true ↔
      ∃ target, Renames held current a.type target := by
  have root : (projectAttribute held.aggregate a []).type.root = a.type := root_typeSignature
  unfold isSkipped
  rw [Bool.and_eq_true, List.contains_iff_mem, root, mem_retyped]
  constructor
  · exact And.right
  · rintro ⟨target, renames⟩
    refine ⟨?_, target, renames⟩
    obtain ⟨x, mem, y, -, -, differs, source, -⟩ := renames
    obtain ⟨a', -, rfl⟩ := mem_projectAggregate.mp mem
    have same : a'.type = a.type := by
      rw [← source]
      exact root_typeSignature.symm
    unfold isRetyped at differs
    simp only [Bool.and_eq_true] at differs
    have container := differs.1.1.1.2
    unfold isContainer projectAttribute at container ⊢
    rw [← same]
    exact container

theorem length_filter_one {α : Type} [DecidableEq α] {p : α → Bool} {xs : List α} {x : α}
    (once : xs.Nodup) (mem : x ∈ xs) (holds : p x = true) (only : ∀ y ∈ xs, p y = true → y = x) :
    (xs.filter p).length = 1 := by
  have counts : xs.countP p = xs.count x := by
    apply List.countP_congr
    intro y there
    rw [beq_iff_eq]
    exact ⟨only y there, fun same => same ▸ holds⟩
  rw [← List.countP_eq_length_filter, counts]
  exact List.count_eq_one_of_mem once mem

section

variable {a : Era.Attribute} {path : String} {names : List String}

/-- An attribute that is gone is asked about, unless its type is renamed elsewhere. -/
theorem asked_gone (mem : a ∈ held.aggregate.attributes)
    (missing : current.aggregate.attribute a.name = none)
    (pieces : Text.segments '.' path = [a.name]) :
    (rulesAbove (scaffolded held current) path).length = 1 ↔
      ∀ target, ¬Renames held current a.type target := by
  rw [length_rulesAbove, vanished_above mem pieces, changes, unmatched, ← not_exists,
    ← isSkipped_iff]
  split
  · rename_i skipped
    constructor
    · intro none
      cases none
    · exact fun kept => absurd skipped kept
  · rename_i kept
    have above : Above a.name path := by
      unfold Above
      rw [pieces, segments_of_dotless (held.plain.dotless a mem)]
    rw [get_counterpart a, missing, Option.map_none]
    constructor
    · exact fun _ => kept
    · intro _
      show (List.filter (fun e => decide (Above e.1 path)) [(a.name, _)]).length = 1
      rw [List.filter_eq_self.mpr fun e only => by
        rw [List.mem_singleton.mp only]
        exact decide_eq_true above]
      rfl

/-- About an attribute whose type is another there is no rule of its own. -/
theorem asked_retyped (mem : a ∈ held.aggregate.attributes) {b : Era.Attribute}
    (found : current.aggregate.attribute a.name = some b)
    (pieces : Text.segments '.' path = [a.name]) :
    (rulesAbove (scaffolded held current) path).length = 0 := by
  have neat := neat_projectAggregate held
  have there : projectAttribute held.aggregate a [] ∈ (projectAggregate held).attributes :=
    mem_projectAggregate.mpr ⟨a, mem, rfl⟩
  rw [length_rulesAbove, vanished_above mem pieces, List.length_eq_zero_iff]
  apply List.filter_eq_nil_iff.mpr
  intro e change above
  have front := of_decide_eq_true above
  unfold Above at front
  rw [pieces] at front
  rw [changes, unmatched] at change
  split at change
  · cases change
  · rw [get_counterpart a, found, Option.map_some] at change
    dsimp only at change
    split at change
    · cases change
    · obtain ⟨m, inside, -, text⟩ := mem_memberDrift change
      obtain ⟨ms, container, member, listed, rfl, -⟩ := (get_membersOf neat there).mp inside
      rw [text, segments_path_member neat there container listed] at front
      exact absurd front.length_le (by simp)

/-- A change the guard sees inside a kept attribute is asked about under the member it is in. -/
theorem asked_kept (mem : a ∈ held.aggregate.attributes) {b : Era.Attribute}
    (found : current.aggregate.attribute a.name = some b) (same : a.type = b.type)
    (sighted : Sighted ⟨held.aggregate, current.aggregate, none⟩ [] a.type b.type names)
    (pieces : Text.segments '.' path = a.name :: names) :
    (rulesAbove (scaffolded held current) path).length = 1 ↔
      ∀ target, ¬Renames held current a.type target := by
  have neat := neat_projectAggregate held
  have there : projectAttribute held.aggregate a [] ∈ (projectAggregate held).attributes :=
    mem_projectAggregate.mpr ⟨a, mem, rfl⟩
  have ne : projectAttribute held.aggregate a [] ≠ projectAttribute current.aggregate b [] := by
    intro equal
    exact signatures_ne_of_sighted sighted (congrArg StorageShape.Attribute.type equal)
  have once : (changes (projectAggregate current) (retyped held current)
      (projectAttribute held.aggregate a [])).Nodup := (nodup_changes neat there).of_map
  rw [length_rulesAbove, vanished_above mem pieces, ← not_exists, ← isSkipped_iff]
  constructor
  · intro one skipped
    rw [changes, unmatched, if_pos skipped] at one
    cases one
  · intro kept
    have drifts : changes (projectAggregate current) (retyped held current)
        (projectAttribute held.aggregate a []) = memberDrift a.name
          (projectAttribute held.aggregate a []) (projectAttribute current.aggregate b []) := by
      rw [changes, unmatched, if_neg kept, get_counterpart a, found, Option.map_some]
      exact if_neg ne
    obtain ⟨m, rest, signature, rfl, key, other⟩ := member_of_sighted mem found same sighted
    rw [drifts] at once ⊢
    have text : Text.segments '.' (a.name ++ "." ++ m) = [a.name, m] := by
      have plain := sighted_dotless sighted m List.mem_cons_self
      rw [segments_member (held.plain.dotless a mem), segments_of_dotless plain]
    refine length_filter_one (x := (a.name ++ "." ++ m, signature)) once ?_ ?_ ?_
    · refine List.mem_map.mpr ⟨(m, signature), List.mem_filter.mpr ⟨?_, ?_⟩, rfl⟩
      · exact Hash.mem_entries.mpr key
      · exact decide_eq_true other
    · apply decide_eq_true
      unfold Above
      rw [pieces, text]
      exact ⟨rest, rfl⟩
    · intro e drift above
      have front := of_decide_eq_true above
      unfold Above at front
      obtain ⟨k, inside, -, named⟩ := mem_memberDrift drift
      obtain ⟨ms, container, member, listed, rfl, -⟩ := (get_membersOf neat there).mp inside
      have segments := segments_path_member neat there container listed
      dsimp only [projectAttribute] at segments
      rw [named, segments, pieces] at front
      have here := (List.cons_prefix_cons.mp (List.cons_prefix_cons.mp front).2).1
      rw [here] at inside named
      exact Prod.ext named (Option.some.inj (inside.symm.trans key))

theorem accepted_iff (mem : a ∈ held.aggregate.attributes)
    (pieces : Text.segments '.' path = a.name :: names) :
    Accepted held current (scaffolded held current) path ↔
      ∃ b, current.aggregate.attribute a.name = some b ∧ Renames held current a.type b.type := by
  constructor
  · rintro ⟨a', mem', b, there, name, above, rule⟩
    unfold Above at above
    rw [segments_of_dotless (held.plain.dotless a' mem'), pieces] at above
    have same := List.inj_on_of_nodup_map held.plain.once mem' mem
      (List.cons_prefix_cons.mp above).1
    subst same
    exact ⟨b, current.attribute_iff.mpr ⟨there, name.symm⟩, retype_mem_scaffolded.mp rule⟩
  · rintro ⟨b, found, renames⟩
    obtain ⟨there, name⟩ := current.attribute_iff.mp found
    refine ⟨a, mem, b, there, name.symm, ?_, retype_mem_scaffolded.mpr renames⟩
    unfold Above
    rw [segments_of_dotless (held.plain.dotless a mem), pieces]
    exact ⟨names, rfl⟩

end

/-! ### What is asked -/

theorem segments_of_sight {names : List String}
    (h : InSight ⟨held.aggregate, current.aggregate, none⟩ names) :
    Text.segments '.' (Text.join "." names) = names := by
  cases h with
  | gone mem missing =>
    apply segments_join (List.cons_ne_nil _ _)
    intro n listed
    cases List.mem_singleton.mp listed
    exact held.plain.dotless _ mem
  | inside mem found rest =>
    apply segments_join (List.cons_ne_nil _ _)
    intro n listed
    cases List.mem_cons.mp listed with
    | inl here =>
      rw [here]
      exact held.plain.dotless _ mem
    | inr later => exact sighted_dotless rest n later

/-- All that the guard demands is asked about exactly where every drift has its answer. -/
theorem asked_iff :
    (∀ path ∈ uncoveredAttributes current.aggregate held.aggregate none,
      (rulesAbove (scaffolded held current) path).length = 1 ∨
        Accepted held current (scaffolded held current) path) ↔ Answered held current := by
  constructor
  · intro asked
    have sees : ∀ names, InSight ⟨held.aggregate, current.aggregate, none⟩ names →
        (rulesAbove (scaffolded held current) (Text.join "." names)).length = 1 ∨
          Accepted held current (scaffolded held current) (Text.join "." names) :=
      fun names sight => asked _ sight.reported
    refine ⟨?_, ?_, ?_⟩
    · intro a mem b found ne
      have sight : InSight ⟨held.aggregate, current.aggregate, none⟩ [a.name] :=
        .inside mem found (.drift (retypeDrift_iff.mpr ne))
      have pieces := segments_of_sight sight
      cases sees _ sight with
      | inl one =>
        rw [asked_retyped mem found pieces] at one
        cases one
      | inr accepted =>
        obtain ⟨b', found', renames⟩ := (accepted_iff mem pieces).mp accepted
        cases found.symm.trans found'
        exact renames
    · intro a mem missing
      have sight : InSight ⟨held.aggregate, current.aggregate, none⟩ [a.name] := .gone mem missing
      have pieces := segments_of_sight sight
      cases sees _ sight with
      | inl one => exact (asked_gone mem missing pieces).mp one
      | inr accepted =>
        obtain ⟨b, found, -⟩ := (accepted_iff mem pieces).mp accepted
        rw [missing] at found
        cases found
    · intro a mem b found same target renames names sighted
      have sight : InSight ⟨held.aggregate, current.aggregate, none⟩ (a.name :: names) :=
        .inside mem found sighted
      have pieces := segments_of_sight sight
      cases sees _ sight with
      | inl one => exact (asked_kept mem found same sighted pieces).mp one target renames
      | inr accepted =>
        obtain ⟨b', found', renames'⟩ := (accepted_iff mem pieces).mp accepted
        cases found.symm.trans found'
        exact renames'.types_ne same
  · intro answered path reported
    obtain ⟨names, sight, rfl⟩ := mem_driftedPaths.mp reported
    have pieces := segments_of_sight sight
    cases sight with
    | gone mem missing =>
      exact Or.inl ((asked_gone mem missing pieces).mpr (answered.gone _ mem missing))
    | inside mem found rest =>
      rename_i a b names
      by_cases same : a.type = b.type
      · apply Or.inl
        apply (asked_kept mem found same rest pieces).mpr
        intro target renames
        exact answered.kept _ mem _ found same target renames _ rest
      · apply Or.inr
        exact (accepted_iff mem pieces).mpr
          ⟨_, found, answered.retyped _ mem _ found same⟩

/-! ### What is guessed -/

/-- A path becomes a rename or a move exactly where it and its target are alone. -/
theorem paired_iff {source target : String} :
    (.rename source target ∈ scaffolded held current ∨
      .move source target ∈ scaffolded held current) ↔
    ∃ signature, Alone (vanished held current) (appeared held current) signature source target := by
  have claims : ∀ {r : Rule}, r = .rename source target ∨ r = .move source target →
      target ∈ claimedTargets [r] ∧ r.about = some source := by
    rintro r (rfl | rfl)
    · exact ⟨List.mem_singleton_self _, rfl⟩
    · exact ⟨List.mem_singleton_self _, rfl⟩
  constructor
  · intro rule
    obtain ⟨r, kind, mem⟩ : ∃ r, (r = .rename source target ∨ r = .move source target) ∧
        r ∈ scaffolded held current := by
      cases rule with
      | inl mem => exact ⟨_, Or.inl rfl, mem⟩
      | inr mem => exact ⟨_, Or.inr rfl, mem⟩
    obtain ⟨takes, about⟩ := claims kind
    rw [attributeRules_eq] at mem
    cases List.mem_append.mp mem with
    | inl early =>
      rw [about_front early] at about
      cases about
    | inr late =>
      obtain ⟨e, there, rfl⟩ := List.mem_map.mp late
      rw [about_pairing] at about
      cases about
      exact ⟨e.2, alone_of_claimed (Hash.mem_entries.mp there) takes⟩
  · rintro ⟨signature, alone⟩
    have there : source ∈ withSignature signature (vanished held current) := by
      rw [alone.vanished]
      exact List.mem_singleton_self _
    have rule : moveOrRename source target ∈ scaffolded held current := by
      rw [attributeRules_eq, ← pairing_of_alone alone]
      exact List.mem_append_right _
        (List.mem_map_of_mem (Hash.mem_entries.mpr (mem_withSignature.mp there)))
    unfold moveOrRename at rule
    split at rule
    · exact Or.inr rule
    · exact Or.inl rule

/-- No target is taken twice. -/
theorem claimed_nodup : (claimedTargets (scaffolded held current)).Nodup := by
  rw [attributeRules_eq, claimedTargets_append, claimed_front, List.nil_append, claimedTargets,
    List.filterMap_map]
  apply List.pairwise_filterMap.mpr
  have distinct := List.pairwise_map.mp (vanished held current).distinct
  refine distinct.imp_of_mem ?_
  intro d e there here ne target first target' second same
  subst same
  have alone := alone_of_claimed (Hash.mem_entries.mp there)
    (List.mem_filterMap.mpr ⟨_, List.mem_singleton_self _, first⟩)
  have alone' := alone_of_claimed (Hash.mem_entries.mp here)
    (List.mem_filterMap.mpr ⟨_, List.mem_singleton_self _, second⟩)
  have kind : target ∈ withSignature d.2 (appeared held current) := by
    rw [alone.appeared]
    exact List.mem_singleton_self _
  have kind' : target ∈ withSignature e.2 (appeared held current) := by
    rw [alone'.appeared]
    exact List.mem_singleton_self _
  have signatures := Option.some.inj
    ((mem_withSignature.mp kind).symm.trans (mem_withSignature.mp kind'))
  have paths := alone.vanished
  rw [signatures, alone'.vanished] at paths
  exact ne (List.singleton_inj.mp paths).symm

theorem path_of_vanished {path : String} {signature : Signature}
    (h : path ∈ withSignature signature (vanished held current)) :
    ∃ list, PathOf (projectAggregate held) path signature list := by
  have mem := Hash.mem_entries.mpr (mem_withSignature.mp h)
  rw [entries_vanished, List.mem_flatMap] at mem
  obtain ⟨a, there, change⟩ := mem
  exact (path_of_change (neat_projectAggregate held) there change).1

theorem path_of_appeared {path : String} {signature : Signature}
    (h : path ∈ withSignature signature (appeared held current)) :
    ∃ list, PathOf (projectAggregate current) path signature list := by
  have mem := Hash.mem_entries.mpr (mem_withSignature.mp h)
  rw [entries_appeared, List.mem_flatMap] at mem
  obtain ⟨a, there, change⟩ := mem
  exact (path_of_change (neat_projectAggregate current) there change).1

theorem sameForm_iff :
    (∀ source target,
      .rename source target ∈ scaffolded held current ∨
        .move source target ∈ scaffolded held current →
      ∃ signature list, PathOf (projectAggregate held) source signature list ∧
        PathOf (projectAggregate current) target signature list ∧
        Alone (vanished held current) (appeared held current) signature source target) ↔
      SameForm held current := by
  have neatHeld := neat_projectAggregate held
  have neatCurrent := neat_projectAggregate current
  constructor
  · intro paired signature source target alone list list' here there
    obtain ⟨signature', form, from', to', -⟩ := paired source target (paired_iff.mpr ⟨_, alone⟩)
    rw [(here.unique neatHeld from').2, (there.unique neatCurrent to').2]
  · intro same source target rule
    obtain ⟨signature, alone⟩ := paired_iff.mp rule
    obtain ⟨list, here⟩ := path_of_vanished (alone.vanished ▸ List.mem_singleton_self source)
    obtain ⟨list', there⟩ := path_of_appeared (alone.appeared ▸ List.mem_singleton_self target)
    rw [← same signature source target alone list list' here there] at there
    exact ⟨signature, list, here, there, alone⟩

/-- The scaffold asks about all that the guard demands and guesses nothing exactly where each
changed type is retyped, no type renamed for one attribute is lost or changed under another, and
what alone has a signature on its side has one list form. -/
theorem honest_iff (held current : Declared) :
    Honest held current ↔ Answered held current ∧ SameForm held current := by
  constructor
  · intro honest
    exact ⟨asked_iff.mp honest.asked, sameForm_iff.mp honest.paired⟩
  · rintro ⟨answered, same⟩
    exact ⟨asked_iff.mpr answered, claimed_nodup, sameForm_iff.mpr same⟩

/-- A person with an age of one primitive type. -/
def person (type : String) : Declared where
  aggregate := ⟨[⟨"age", type, false⟩], []⟩
  identifiedBy := []
  plain := by
    refine ⟨List.nodup_singleton _, ?_⟩
    intro a mem
    cases List.mem_singleton.mp mem
    show '.' ∉ "age".toList
    decide
  members := by
    intro c mem
    cases mem
  once := List.nodup_nil

/-- A text that becomes a number is asked about nowhere. -/
theorem retyped_age_unasked : ¬Honest (person "String") (person "Integer") := by
  intro honest
  obtain ⟨a, mem, b, -, -, differs, -⟩ := (asked_iff.mp honest.asked).retyped
    ⟨"age", "String", false⟩ List.mem_cons_self ⟨"age", "Integer", false⟩ rfl (by decide)
  obtain ⟨a', declared, rfl⟩ := mem_projectAggregate.mp mem
  cases List.mem_singleton.mp declared
  unfold isRetyped isContainer projectAttribute at differs
  rw [typeSignature_undeclared rfl] at differs
  simp at differs

end Hecks.Era.Scaffold
