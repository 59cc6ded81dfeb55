import Hecks.Era.ShapeDiff
import Hecks.Lib.Hash

/-! The rules a scaffold writes for one aggregate, from its held and its current shape. -/
namespace Hecks.Era

open Unfolding

/-! ### Shapes -/

/-- Names that are declared once, none of them with a dot in it. -/
structure Plain (attributes : List Attribute) : Prop where
  once : (attributes.map Attribute.name).Nodup
  dotless : ∀ a ∈ attributes, '.' ∉ a.name.toList

/-- A declared aggregate with the paths that identify it. A value object is identified by its
name, and a dot in a path parts a member from what holds it. -/
structure Declared where
  aggregate : Aggregate
  identifiedBy : List String
  plain : Plain aggregate.attributes
  members : ∀ c ∈ aggregate.containers, Plain c.attributes
  once : ((aggregate.containers.filter fun c => c.kind == .valueObject).map Container.name).Nodup

namespace StorageShape

/-- What an attribute says of itself: its name and whether it is a list. -/
abbrev Label := String × Bool

/-- A primitive's type name, or the name of a value object or entity with its members. -/
abbrev Signature := Unfolding.Tree String Label

/-- One attribute of a shape. -/
structure Attribute where
  name : String
  list : Bool
  type : Signature
deriving DecidableEq

structure Shape where
  identity : List String
  attributes : List Attribute

/-- The first value object of that name, else the first entity. -/
def nestedType (a : Aggregate) (typeName : String) : Option Container :=
  ((a.containers.filter fun c => c.kind == .valueObject).find? fun c => c.name == typeName).or
    ((a.containers.filter fun c => c.kind == .entity).find? fun c => c.name == typeName)

/-- `sort_by`, of names that are declared once. -/
def byName (attributes : List Era.Attribute) : List Era.Attribute :=
  attributes.mergeSort fun a b => decide (a.name ≤ b.name)

def labelOf (attr : Era.Attribute) : Label := (attr.name, attr.list)

theorem mem_nestedType {a : Aggregate} {typeName : String} {c : Container}
    (h : nestedType a typeName = some c) : c ∈ a.containers ∧ c.name = typeName := by
  have named : ∀ {cs : List Container}, cs.find? (fun c => c.name == typeName) = some c →
      c ∈ cs ∧ c.name = typeName := by
    intro cs found
    have same := List.find?_some found
    exact ⟨List.mem_of_find?_eq_some found, beq_iff_eq.mp same⟩
  cases Option.or_eq_some_iff.mp h with
  | inl found => exact (named found).imp_left fun mem => (List.mem_filter.mp mem).1
  | inr found => exact (named found.2).imp_left fun mem => (List.mem_filter.mp mem).1

/-- The types an aggregate declares, each with its members sorted by name. -/
def declarations (a : Aggregate) : Declarations String Label where
  names := a.containers.map Container.name
  members typeName := (nestedType a typeName).map fun c =>
    (byName c.attributes).map fun m => (labelOf m, m.type)
  named := by
    intro typeName ms found
    obtain ⟨c, declared, -⟩ := Option.map_eq_some_iff.mp found
    obtain ⟨mem, rfl⟩ := mem_nestedType declared
    exact List.mem_map_of_mem mem

/-- A type that is being written out already is not written out again. -/
def typeSignature (a : Aggregate) (typeName : String) (seen : List String) : Signature :=
  written (declarations a) seen typeName

def projectAttribute (a : Aggregate) (attr : Era.Attribute) (seen : List String) :
    Attribute :=
  ⟨attr.name, attr.list, typeSignature a attr.type seen⟩

def projectAggregate (d : Declared) : Shape :=
  ⟨d.identifiedBy,
    (byName d.aggregate.attributes).map fun a => projectAttribute d.aggregate a []⟩

end StorageShape

/-! ### The diff of two shapes -/

namespace Scaffold

open StorageShape

/-- Where a rule takes a value from: a path, or the identity as a whole. -/
inductive Source where
  | identity
  | path (text : String)
deriving DecidableEq

inductive Rule where
  | retype (source target : String)
  | rename (source target : String)
  | move (source target : String)
  | unresolved (source : Source) (candidates : List String)
deriving DecidableEq

/-- Paths, dotted for a member, with their type signatures. -/
abbrev Paths := Hash String Signature

/-- A shape's attributes keyed by name. -/
def attributesByName (shape : Shape) : Hash String StorageShape.Attribute :=
  Hash.setAll .empty (shape.attributes.map fun a => (a.name, a))

def isContainer (attr : StorageShape.Attribute) : Bool :=
  match attr.type with
  | .leaf _ => false
  | .node _ _ => true

/-- The members of a container, `none` for a primitive. -/
def membersIn : Signature → Option (List (Label × Signature))
  | .leaf _ => none
  | .node _ members => some members

/-- A container attribute's members keyed by name; nothing for a primitive. -/
def membersOf (attr : StorageShape.Attribute) : Paths :=
  Hash.setAll .empty (((membersIn attr.type).getD []).map fun m => (m.1.1, m.2))

/-- Whether two versions of an attribute differ only in the name of the same-shaped type. -/
def isRetyped (held current : StorageShape.Attribute) : Bool :=
  held ≠ current && isContainer held && isContainer current &&
    membersIn held.type = membersIn current.type && held.list == current.list

/-- The dotted member paths of an attribute that the other lacks or types differently. -/
def memberDrift (name : String) (attr other : StorageShape.Attribute) :
    List (String × Signature) :=
  ((membersOf attr).entries.filter fun m => (membersOf other).get m.1 ≠ some m.2).map
    fun m => (name ++ "." ++ m.1, m.2)

/-- An attribute of a type that some attribute was retyped from is left out. -/
def isSkipped (retyped : List String) (attr : StorageShape.Attribute) : Bool :=
  isContainer attr && retyped.contains attr.type.root

/-- The paths of an attribute that the others lack or hold differently: the whole attribute, or
each member of it that vanished or changed type. -/
def unmatched (others : Hash String StorageShape.Attribute) (retyped : List String)
    (name : String) (attr : StorageShape.Attribute) : List (String × Signature) :=
  if isSkipped retyped attr then []
  else
    match others.get name with
    | none => [(name, attr.type)]
    | some other => if attr = other then [] else memberDrift name attr other

def unmatchedPaths (attrs others : Hash String StorageShape.Attribute)
    (retyped : List String) : Paths :=
  attrs.entries.foldl (fun paths e => paths.setAll (unmatched others retyped e.1 e.2)) .empty

def vanishedPaths (heldAttrs currentAttrs : Hash String StorageShape.Attribute)
    (retyped : List String) : Paths :=
  unmatchedPaths heldAttrs currentAttrs retyped

def appearedPaths (heldAttrs currentAttrs : Hash String StorageShape.Attribute)
    (retyped : List String) : Paths :=
  unmatchedPaths currentAttrs heldAttrs retyped

/-! ### The rules -/

/-- It only hints: the coverage check is what refuses a changed identity. -/
def identityHint (heldShape currentShape : Shape) : Option Rule :=
  if heldShape.identity = currentShape.identity then none else some (.unresolved .identity [])

def retypeRules (heldAttrs currentAttrs : Hash String StorageShape.Attribute) : List Rule :=
  heldAttrs.entries.filterMap fun e =>
    match currentAttrs.get e.1 with
    | none => none
    | some current =>
        if isRetyped e.2 current then some (.retype e.2.type.root current.type.root) else none

/-- What `compatibleCandidates` compares: the members or the primitive. -/
def scalarOf : Signature → String ⊕ List (Label × Signature)
  | .leaf t => .inl t
  | .node _ members => .inr members

/-- Appeared paths type-compatible with a vanished path's signature. -/
def compatibleCandidates (appeared : Paths) (signature : Signature) : List String :=
  (appeared.entries.filter fun e => scalarOf e.2 = scalarOf signature).map (·.1)

/-- The destinations the rename and move rules so far already took. -/
def claimedTargets (rules : List Rule) : List String :=
  rules.filterMap fun
    | .rename _ target => some target
    | .move _ target => some target
    | _ => none

/-- A path crossing a value-object boundary on either end is a move. -/
def moveOrRename (path target : String) : Rule :=
  if Text.containsChar '.' path || Text.containsChar '.' target then .move path target
  else .rename path target

/-- The appeared paths with that signature. -/
def withSignature (signature : Signature) (paths : Paths) : List String :=
  (paths.entries.filter fun e => e.2 = signature).map (·.1)

/-- The one rule a vanished path resolves to, given the targets earlier rules claimed. -/
def ruleFor (rules : List Rule) (path : String) (signature : Signature)
    (vanished appeared : Paths) : Rule :=
  let candidates := (withSignature signature appeared).filter fun t =>
    !(claimedTargets rules).contains t
  match candidates with
  | [target] =>
      if (withSignature signature vanished).length = 1 then moveOrRename path target
      else .unresolved (.path path) [target]
  | [] => .unresolved (.path path) (compatibleCandidates appeared signature)
  | several => .unresolved (.path path) several

/-- Each step sees the targets the earlier ones claimed. -/
def resolveVanishedRules (rules : List Rule) (vanished appeared : Paths) : List Rule :=
  vanished.entries.foldl (fun rules e => rules ++ [ruleFor rules e.1 e.2 vanished appeared]) rules

/-- The type names the rules retype from. -/
def retypedFrom (rules : List Rule) : List String :=
  rules.filterMap fun
    | .retype source _ => some source
    | _ => none

def attributeRules (heldShape currentShape : Shape) : List Rule :=
  let heldAttrs := attributesByName heldShape
  let currentAttrs := attributesByName currentShape
  let rules := (identityHint heldShape currentShape).toList ++ retypeRules heldAttrs currentAttrs
  let retyped := retypedFrom rules
  resolveVanishedRules rules (vanishedPaths heldAttrs currentAttrs retyped)
    (appearedPaths heldAttrs currentAttrs retyped)

/-! ### What earlier rules claim -/

section

variable {rules : List Rule} {vanished appeared : Paths} {path target : String}
  {signature other : Signature}

theorem mem_withSignature {paths : Paths} :
    path ∈ withSignature signature paths ↔ paths.get path = some signature := by
  rw [← Hash.mem_entries]
  constructor
  · intro mem
    obtain ⟨e, kept, rfl⟩ := List.mem_map.mp mem
    have same := (List.mem_filter.mp kept).2
    rw [← of_decide_eq_true same]
    exact (List.mem_filter.mp kept).1
  · intro mem
    exact List.mem_map.mpr ⟨_, List.mem_filter.mpr ⟨mem, decide_eq_true rfl⟩, rfl⟩

theorem claimedTargets_append (front back : List Rule) :
    claimedTargets (front ++ back) = claimedTargets front ++ claimedTargets back :=
  List.filterMap_append

theorem claimed_moveOrRename : claimedTargets [moveOrRename path target] = [target] := by
  unfold moveOrRename
  split
  · rfl
  · rfl

/-- What a path resolves to where no target is claimed. -/
def pairing (vanished appeared : Paths) (e : String × Signature) : Rule :=
  ruleFor [] e.1 e.2 vanished appeared

/-- The path and the target are the only ones of the signature, each on its side. -/
structure Alone (vanished appeared : Paths) (signature : Signature) (path target : String) :
    Prop where
  vanished : withSignature signature vanished = [path]
  appeared : withSignature signature appeared = [target]

/-- A target is claimed for a path only where the two are alone with the signature. -/
theorem alone_of_claimed (there : vanished.get path = some signature)
    (h : target ∈ claimedTargets [pairing vanished appeared (path, signature)]) :
    Alone vanished appeared signature path target := by
  unfold pairing ruleFor at h
  dsimp only at h
  have unclaimed : ((withSignature signature appeared).filter fun t =>
      !(claimedTargets []).contains t) = withSignature signature appeared :=
    List.filter_eq_self.mpr fun _ _ => rfl
  rw [unclaimed] at h
  split at h
  · rename_i candidate only
    split at h
    · rename_i one
      rw [claimed_moveOrRename, List.mem_singleton] at h
      obtain ⟨p, single⟩ := List.length_eq_one_iff.mp one
      have listed := mem_withSignature.mpr there
      rw [single, List.mem_singleton] at listed
      exact ⟨by rw [single, listed], by rw [only, h]⟩
    · cases h
  · cases h
  · cases h

theorem pairing_of_alone (h : Alone vanished appeared signature path target) :
    pairing vanished appeared (path, signature) = moveOrRename path target := by
  have unclaimed : ((withSignature signature appeared).filter fun t =>
      !(claimedTargets []).contains t) = [target] := by
    rw [h.appeared]
    rfl
  unfold pairing ruleFor
  rw [unclaimed, h.vanished]
  rfl

/-- No candidate of a path was claimed by the paths before it, so the claims decide nothing. -/
theorem ruleFor_eq_pairing {before after : List (String × Signature)} {e : String × Signature}
    (order : vanished.entries = before ++ e :: after) (fresh : claimedTargets rules = []) :
    ruleFor (rules ++ before.map (pairing vanished appeared)) e.1 e.2 vanished appeared =
      pairing vanished appeared e := by
  have here : vanished.get e.1 = some e.2 := by
    rw [← Hash.mem_entries, order]
    exact List.mem_append_right _ List.mem_cons_self
  have unclaimed : ∀ t ∈ withSignature e.2 appeared,
      t ∉ claimedTargets (rules ++ before.map (pairing vanished appeared)) := by
    intro t candidate claimed
    rw [claimedTargets_append, fresh, List.nil_append] at claimed
    obtain ⟨r, listed, takes⟩ := List.mem_filterMap.mp claimed
    obtain ⟨d, earlier, rfl⟩ := List.mem_map.mp listed
    have there : vanished.get d.1 = some d.2 := by
      rw [← Hash.mem_entries, order]
      exact List.mem_append_left _ earlier
    have alone := alone_of_claimed there
      (List.mem_filterMap.mpr ⟨_, List.mem_singleton_self _, takes⟩)
    have listed : t ∈ withSignature d.2 appeared := by
      rw [alone.appeared]
      exact List.mem_singleton_self t
    -- the target has one signature, so both paths have it, and only one path has it
    have same : d.2 = e.2 := Option.some.inj
      ((mem_withSignature.mp listed).symm.trans (mem_withSignature.mp candidate))
    have only := mem_withSignature.mpr here
    rw [← same, alone.vanished, List.mem_singleton] at only
    have distinct := vanished.distinct
    rw [order, List.map_append, List.map_cons] at distinct
    have apart := List.disjoint_of_nodup_append distinct (List.mem_map_of_mem earlier)
    rw [← only] at apart
    exact apart List.mem_cons_self
  have kept : ((withSignature e.2 appeared).filter fun t =>
      !(claimedTargets (rules ++ before.map (pairing vanished appeared))).contains t) =
        withSignature e.2 appeared :=
    List.filter_eq_self.mpr fun t mem => by simpa using unclaimed t mem
  have kept' : ((withSignature e.2 appeared).filter fun t =>
      !(claimedTargets []).contains t) = withSignature e.2 appeared :=
    List.filter_eq_self.mpr fun _ _ => rfl
  rw [pairing, ruleFor, ruleFor, kept, kept']

/-- The vanished paths resolve one by one as if each were the first. -/
theorem resolveVanishedRules_eq (fresh : claimedTargets rules = []) :
    resolveVanishedRules rules vanished appeared =
      rules ++ vanished.entries.map (pairing vanished appeared) := by
  have steps : ∀ before after, vanished.entries = before ++ after →
      after.foldl (fun rules e => rules ++ [ruleFor rules e.1 e.2 vanished appeared])
          (rules ++ before.map (pairing vanished appeared)) =
        rules ++ vanished.entries.map (pairing vanished appeared) := by
    intro before after
    induction after generalizing before with
    | nil =>
      intro order
      rw [order, List.append_nil]
      rfl
    | cons e after ih =>
      intro order
      have next := ih (before ++ [e]) (by rw [order, List.append_assoc, List.singleton_append])
      rw [List.map_append, List.map_singleton, ← List.append_assoc] at next
      rw [List.foldl_cons, ruleFor_eq_pairing order fresh]
      exact next
  have whole := steps [] vanished.entries rfl
  rw [List.map_nil, List.append_nil] at whole
  exact whole

end

end Scaffold

end Hecks.Era
