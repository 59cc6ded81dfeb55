import Hecks.Era.Scaffold
import Hecks.Lib.Segments

/-! Which paths of two shapes the scaffold finds changed. -/
namespace Hecks.Era

open Unfolding

/-! ### Dotted texts -/

theorem segments_of_dotless {name : String} (h : '.' ∉ name.toList) :
    Text.segments '.' name = [name] := by
  rw [Text.segments, Text.segmentsChars_of_not_mem h, List.map_singleton, String.ofList_toList]

theorem segments_member {name : String} (h : '.' ∉ name.toList) (rest : String) :
    Text.segments '.' (name ++ "." ++ rest) = name :: Text.segments '.' rest := by
  have chars : (name ++ "." ++ rest).toList = name.toList ++ '.' :: rest.toList := by
    rw [String.toList_append, String.toList_append, List.append_assoc]
    rfl
  rw [Text.segments, chars, Text.segmentsChars_append rest.toList h, List.map_cons,
    String.ofList_toList, Text.segments]

/-- Names without a dot are the pieces of the path they make. -/
theorem segments_join {names : List String} (some : names ≠ [])
    (dotless : ∀ n ∈ names, '.' ∉ n.toList) : Text.segments '.' (Text.join "." names) = names := by
  induction names with
  | nil => exact absurd rfl some
  | cons name names ih =>
    have here := dotless name List.mem_cons_self
    cases names with
    | nil => exact segments_of_dotless here
    | cons next names =>
      have rest := ih (List.cons_ne_nil _ _) fun n mem => dotless n (List.mem_cons_of_mem _ mem)
      rw [Text.join, segments_member here, rest]
      exact List.cons_ne_nil _ _

/-! ### Names declared once -/

section

variable {α : Type} {name : α → String} {entries : List α} {named : String} {e : α}

theorem find?_named (once : (entries.map name).Nodup) :
    entries.find? (fun e => name e == named) = some e ↔ e ∈ entries ∧ name e = named := by
  induction entries with
  | nil => simp
  | cons d entries ih =>
    obtain ⟨fresh, rest⟩ := List.nodup_cons.mp once
    rw [List.find?_cons, List.mem_cons]
    by_cases here : name d = named
    · rw [beq_iff_eq.mpr here]
      constructor
      · rintro ⟨⟩
        exact ⟨Or.inl rfl, here⟩
      · rintro ⟨rfl | later, same⟩
        · rfl
        · exact absurd (List.mem_map.mpr ⟨e, later, same.trans here.symm⟩) fresh
    · rw [beq_eq_false_iff_ne.mpr here]
      dsimp only
      rw [ih rest]
      constructor
      · rintro ⟨later, same⟩
        exact ⟨Or.inr later, same⟩
      · rintro ⟨rfl | later, same⟩
        · exact absurd same here
        · exact ⟨later, same⟩

theorem lastNamed_eq_find? (once : (entries.map name).Nodup) :
    lastNamed name entries named = entries.find? fun e => name e == named := by
  cases found : lastNamed name entries named with
  | some e => exact ((find?_named once).mpr (mem_of_lastNamed found)).symm
  | none =>
    rw [lastNamed, List.getLast?_eq_none_iff, List.filter_eq_nil_iff] at found
    exact (List.find?_eq_none.mpr found).symm

end

theorem Plain.attribute_iff {c : Container} (plain : Plain c.attributes) {named : String}
    {m : Attribute} : c.attribute named = some m ↔ m ∈ c.attributes ∧ m.name = named := by
  unfold Container.attribute
  split
  · exact find?_named plain.once
  · rw [lastNamed_eq_find? plain.once]
    exact find?_named plain.once

namespace Declared

variable {d : Declared} {named typeName : String} {a : Attribute} {c : Container}

theorem attribute_iff :
    d.aggregate.attribute named = some a ↔ a ∈ d.aggregate.attributes ∧ a.name = named := by
  rw [Aggregate.attribute, lastNamed_eq_find? d.plain.once]
  exact find?_named d.plain.once

/-- The guard and the shape find the same type under a name. -/
theorem nestedType_eq : nestedType d.aggregate typeName =
    StorageShape.nestedType d.aggregate typeName := by
  rw [nestedType, StorageShape.nestedType, lastNamed_eq_find? d.once]

theorem plain_of_nested (h : StorageShape.nestedType d.aggregate typeName = some c) :
    Plain c.attributes :=
  d.members c (StorageShape.mem_nestedType h).1

end Declared

/-! ### A declared shape -/

namespace StorageShape

theorem perm_byName (attributes : List Era.Attribute) : (byName attributes).Perm attributes :=
  List.mergeSort_perm _ _

theorem mem_byName {attributes : List Era.Attribute} {a : Era.Attribute} :
    a ∈ byName attributes ↔ a ∈ attributes :=
  (perm_byName attributes).mem_iff

theorem once_byName {attributes : List Era.Attribute} (plain : Plain attributes) :
    ((byName attributes).map Era.Attribute.name).Nodup :=
  ((perm_byName attributes).map _).nodup_iff.mpr plain.once

section

variable {a : Aggregate} {typeName : String} {c : Container}

theorem root_typeSignature {seen : List String} : (typeSignature a typeName seen).root = typeName :=
  root_written

theorem typeSignature_declared {seen : List String} (h : nestedType a typeName = some c)
    (fresh : typeName ∉ seen) : typeSignature a typeName seen =
      .node typeName ((byName c.attributes).map fun m =>
        (labelOf m, typeSignature a m.type (seen ++ [typeName]))) := by
  have declared : (declarations a).members typeName =
      some ((byName c.attributes).map fun m => (labelOf m, m.type)) := by
    show Option.map _ (nestedType a typeName) = _
    rw [h]
    rfl
  rw [typeSignature, written_declared declared fresh, List.map_map]
  rfl

theorem typeSignature_undeclared {seen : List String} (h : nestedType a typeName = none) :
    typeSignature a typeName seen = .leaf typeName := by
  apply written_undeclared
  show Option.map _ (nestedType a typeName) = _
  rw [h]
  rfl

end

/-- The names of a shape are plain, and so are the members of its containers. -/
structure Neat (s : Shape) : Prop where
  once : (s.attributes.map Attribute.name).Nodup
  dotless : ∀ a ∈ s.attributes, '.' ∉ a.name.toList
  members : ∀ a ∈ s.attributes, ∀ ms, Scaffold.membersIn a.type = some ms →
    (ms.map fun m => m.1.1).Nodup ∧ ∀ m ∈ ms, '.' ∉ m.1.1.toList

theorem mem_projectAggregate {d : Declared} {x : Attribute} :
    x ∈ (projectAggregate d).attributes ↔
      ∃ a ∈ d.aggregate.attributes, projectAttribute d.aggregate a [] = x := by
  rw [projectAggregate, List.mem_map]
  constructor
  · rintro ⟨a, mem, rfl⟩
    exact ⟨a, mem_byName.mp mem, rfl⟩
  · rintro ⟨a, mem, rfl⟩
    exact ⟨a, mem_byName.mpr mem, rfl⟩

theorem neat_projectAggregate (d : Declared) : Neat (projectAggregate d) := by
  refine ⟨?_, ?_, ?_⟩
  · rw [projectAggregate, List.map_map]
    exact once_byName d.plain
  · intro x mem
    obtain ⟨a, declared, rfl⟩ := mem_projectAggregate.mp mem
    exact d.plain.dotless a declared
  · intro x mem ms container
    obtain ⟨a, declared, rfl⟩ := mem_projectAggregate.mp mem
    rw [projectAttribute] at container
    dsimp only at container
    cases found : nestedType d.aggregate a.type with
    | none =>
      rw [typeSignature_undeclared found] at container
      cases container
    | some c =>
      rw [typeSignature_declared found List.not_mem_nil] at container
      cases container
      have plain := d.plain_of_nested found
      refine ⟨?_, ?_⟩
      · rw [List.map_map]
        exact once_byName plain
      · intro m mem
        obtain ⟨member, inside, rfl⟩ := List.mem_map.mp mem
        exact plain.dotless member (mem_byName.mp inside)

end StorageShape

/-! ### The paths of a shape -/

namespace Scaffold

open StorageShape

/-- A path of a shape, an attribute or a member of one, with its type and its list form. -/
inductive PathOf (s : Shape) : String → Signature → Bool → Prop
  | whole {a : StorageShape.Attribute} (mem : a ∈ s.attributes) : PathOf s a.name a.type a.list
  | member {a : StorageShape.Attribute} {ms : List (Label × Signature)} {m : Label × Signature}
      (mem : a ∈ s.attributes) (container : membersIn a.type = some ms) (inside : m ∈ ms) :
      PathOf s (a.name ++ "." ++ m.1.1) m.2 m.1.2

section

variable {s : Shape}

theorem eq_of_name (neat : Neat s) {a b : StorageShape.Attribute} (ha : a ∈ s.attributes)
    (hb : b ∈ s.attributes) (same : a.name = b.name) : a = b :=
  List.inj_on_of_nodup_map neat.once ha hb same

theorem segments_path_member (neat : Neat s) {a : StorageShape.Attribute}
    {ms : List (Label × Signature)} {m : Label × Signature} (mem : a ∈ s.attributes)
    (container : membersIn a.type = some ms) (inside : m ∈ ms) :
    Text.segments '.' (a.name ++ "." ++ m.1.1) = [a.name, m.1.1] := by
  rw [segments_member (neat.dotless a mem),
    segments_of_dotless ((neat.members a mem ms container).2 m inside)]

/-- A path of a shape has one type and one list form. -/
theorem PathOf.unique (neat : Neat s) {path : String} {signature signature' : Signature}
    {list list' : Bool} (h : PathOf s path signature list)
    (h' : PathOf s path signature' list') : signature = signature' ∧ list = list' := by
  have pieces : ∀ {p : String} {sig : Signature} {l : Bool}, PathOf s p sig l →
      (∃ a ∈ s.attributes, Text.segments '.' p = [a.name] ∧ sig = a.type ∧ l = a.list) ∨
      ∃ a ∈ s.attributes, ∃ ms, membersIn a.type = some ms ∧ ∃ m ∈ ms,
        Text.segments '.' p = [a.name, m.1.1] ∧ sig = m.2 ∧ l = m.1.2 := by
    intro p sig l there
    cases there with
    | whole mem => exact Or.inl ⟨_, mem, segments_of_dotless (neat.dotless _ mem), rfl, rfl⟩
    | member mem container inside =>
      exact Or.inr ⟨_, mem, _, container, _, inside,
        segments_path_member neat mem container inside, rfl, rfl⟩
  obtain ⟨a, ha, here, rfl, rfl⟩ | ⟨a, ha, ms, container, m, inside, here, rfl, rfl⟩ := pieces h
  · obtain ⟨b, hb, there, rfl, rfl⟩ | ⟨b, hb, ns, -, n, -, there, -, -⟩ := pieces h'
    · rw [here] at there
      rw [eq_of_name neat ha hb (List.singleton_inj.mp there)]
      exact ⟨rfl, rfl⟩
    · rw [here] at there
      exact absurd (congrArg List.length there) (by simp)
  · obtain ⟨b, hb, there, -, -⟩ | ⟨b, hb, ns, container', n, inside', there, rfl, rfl⟩ :=
      pieces h'
    · rw [here] at there
      exact absurd (congrArg List.length there) (by simp)
    · rw [here] at there
      obtain ⟨top, rest⟩ := List.cons.inj there
      cases eq_of_name neat ha hb top
      cases container.symm.trans container'
      have once := (neat.members a ha ms container).1
      rw [List.inj_on_of_nodup_map once inside inside' (List.singleton_inj.mp rest)]
      exact ⟨rfl, rfl⟩

/-! ### The maps of a shape -/

theorem entries_attributesByName (neat : Neat s) :
    (attributesByName s).entries = s.attributes.map fun a => (a.name, a) := by
  apply Hash.entries_setAll
  rw [List.map_map]
  exact neat.once

theorem get_attributesByName (neat : Neat s) {name : String} {a : StorageShape.Attribute} :
    (attributesByName s).get name = some a ↔ a ∈ s.attributes ∧ a.name = name := by
  rw [← Hash.mem_entries, entries_attributesByName neat, List.mem_map]
  constructor
  · rintro ⟨b, mem, same⟩
    cases same
    exact ⟨mem, rfl⟩
  · rintro ⟨mem, rfl⟩
    exact ⟨a, mem, rfl⟩

theorem entries_membersOf (neat : Neat s) {a : StorageShape.Attribute} (mem : a ∈ s.attributes) :
    (membersOf a).entries = ((membersIn a.type).getD []).map fun m => (m.1.1, m.2) := by
  apply Hash.entries_setAll
  rw [List.map_map]
  cases container : membersIn a.type with
  | none => exact List.nodup_nil
  | some ms => exact (neat.members a mem ms container).1

theorem get_membersOf (neat : Neat s) {a : StorageShape.Attribute} (mem : a ∈ s.attributes)
    {name : String} {signature : Signature} :
    (membersOf a).get name = some signature ↔
      ∃ ms, membersIn a.type = some ms ∧ ∃ m ∈ ms, m.1.1 = name ∧ m.2 = signature := by
  rw [← Hash.mem_entries, entries_membersOf neat mem, List.mem_map]
  cases membersIn a.type with
  | none => simp
  | some ms => simp

end

/-! ### The changed paths -/

section

variable {mine others : Shape} {retyped : List String}

/-- What the attribute adds to the changed paths. -/
abbrev changes (others : Shape) (retyped : List String) (a : StorageShape.Attribute) :
    List (String × Signature) :=
  unmatched (attributesByName others) retyped a.name a

theorem mem_memberDrift {name : String} {a other : StorageShape.Attribute}
    {e : String × Signature} (h : e ∈ memberDrift name a other) :
    ∃ m, (membersOf a).get m = some e.2 ∧ (membersOf other).get m ≠ some e.2 ∧
      e.1 = name ++ "." ++ m := by
  obtain ⟨m, kept, rfl⟩ := List.mem_map.mp h
  obtain ⟨mem, drifts⟩ := List.mem_filter.mp kept
  exact ⟨m.1, Hash.mem_entries.mp mem, of_decide_eq_true drifts, rfl⟩

/-- A changed path is a path of the shape, below the attribute that adds it. -/
theorem path_of_change (neat : Neat mine) {a : StorageShape.Attribute} (mem : a ∈ mine.attributes)
    {e : String × Signature} (h : e ∈ changes others retyped a) :
    (∃ list, PathOf mine e.1 e.2 list) ∧
      (Text.segments '.' e.1 = [a.name] ∨ ∃ m, Text.segments '.' e.1 = [a.name, m]) := by
  unfold changes unmatched at h
  split at h
  · cases h
  · split at h
    · cases List.mem_singleton.mp h
      exact ⟨⟨_, .whole mem⟩, Or.inl (segments_of_dotless (neat.dotless a mem))⟩
    · split at h
      · cases h
      · obtain ⟨name, there, -, text⟩ := mem_memberDrift h
        obtain ⟨ms, container, m, inside, rfl, signature⟩ := (get_membersOf neat mem).mp there
        rw [text, ← signature]
        exact ⟨⟨_, .member mem container inside⟩,
          Or.inr ⟨_, segments_path_member neat mem container inside⟩⟩

theorem nodup_changes (neat : Neat mine) {a : StorageShape.Attribute} (mem : a ∈ mine.attributes) :
    ((changes others retyped a).map Prod.fst).Nodup := by
  unfold changes unmatched
  split
  · exact List.nodup_nil
  · split
    · exact List.nodup_singleton _
    · split
      · exact List.nodup_nil
      · rename_i other _ _
        rw [memberDrift, List.map_map]
        have texts : (fun m : String × Signature => a.name ++ "." ++ m.1) =
            (fun m => a.name ++ "." ++ m) ∘ Prod.fst := rfl
        have apart := (membersOf a).distinct.sublist
          ((List.filter_sublist (p := fun m => (membersOf other).get m.1 ≠ some m.2)).map Prod.fst)
        show (List.map (fun m : String × Signature => a.name ++ "." ++ m.1) _).Nodup
        rw [texts, ← List.map_map]
        refine List.Nodup.map_on ?_ apart
        intro m hm n hn same
        have pieces := congrArg (Text.segments '.') same
        rw [segments_member (neat.dotless a mem), segments_member (neat.dotless a mem)] at pieces
        have dotless : ∀ k ∈ ((membersOf a).entries.filter fun m =>
            (membersOf other).get m.1 ≠ some m.2).map Prod.fst, Text.segments '.' k = [k] := by
          intro k hk
          obtain ⟨entry, kept, rfl⟩ := List.mem_map.mp hk
          obtain ⟨ms, container, m, inside, named, -⟩ := (get_membersOf neat mem).mp
            (Hash.mem_entries.mp (List.mem_filter.mp kept).1)
          rw [← named]
          exact segments_of_dotless ((neat.members a mem ms container).2 m inside)
        rw [dotless m hm, dotless n hn] at pieces
        exact List.singleton_inj.mp (List.cons.inj pieces).2

/-- The attributes' changes have no path in common. -/
theorem entries_unmatchedPaths (neat : Neat mine) :
    (unmatchedPaths (attributesByName mine) (attributesByName others) retyped).entries =
      mine.attributes.flatMap (changes others retyped) := by
  have flat : unmatchedPaths (attributesByName mine) (attributesByName others) retyped =
      Hash.setAll .empty (mine.attributes.flatMap (changes others retyped)) := by
    rw [unmatchedPaths, entries_attributesByName neat, List.foldl_map, Hash.setAll,
      List.foldl_flatMap]
    rfl
  rw [flat]
  apply Hash.entries_setAll
  rw [List.map_flatMap]
  refine List.nodup_flatMap.mpr ⟨fun a mem => nodup_changes neat mem, ?_⟩
  have apart : mine.attributes.Pairwise fun a b => a.name ≠ b.name :=
    List.pairwise_map.mp neat.once
  refine apart.imp_of_mem ?_
  intro a b ha hb ne path left right
  have headed : ∀ {c : StorageShape.Attribute}, c ∈ mine.attributes →
      path ∈ (changes others retyped c).map Prod.fst →
      (Text.segments '.' path).head? = some c.name := by
    intro c hc there
    obtain ⟨e, mem, rfl⟩ := List.mem_map.mp there
    obtain whole | ⟨m, member⟩ := (path_of_change neat hc mem).2
    · rw [whole]
      rfl
    · rw [member]
      rfl
  exact ne (Option.some.inj ((headed ha left).symm.trans (headed hb right)))

end

end Scaffold

end Hecks.Era
