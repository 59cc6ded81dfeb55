import Hecks.Host.ShapeEdits
import Hecks.Lib.Unordered

/-! What the canonical text is the text of: a projection in which aggregates and members stand in no
order, as long as no two of them share a name. -/
namespace Hecks.Host.StorageShape

open Unfolding Relation

/-! ### Sorting by name -/

def namesOf (nodes : List Serde) : List String := nodes.map (·.textAt "name")

theorem byName_perm (nodes : List Serde) : (byName nodes).Perm nodes := List.mergeSort_perm _ _

theorem byName_ascending {nodes : List Serde} (distinct : (namesOf nodes).Nodup) :
    (byName nodes).Pairwise fun x y => x.textAt "name" < y.textAt "name" := by
  have sorted : (byName nodes).Pairwise fun x y => x.textAt "name" ≤ y.textAt "name" := by
    apply (List.pairwise_mergeSort _ _ _).imp
    · intro x y le
      exact not_lt.mp (of_decide_eq_false (Bool.not_eq_true' _ ▸ le))
    · intro x y z xy yz
      simp only [Bool.not_eq_true', decide_eq_false_iff_not, not_lt] at xy yz ⊢
      exact xy.trans yz
    · intro x y
      simp only [Bool.or_eq_true, Bool.not_eq_true', decide_eq_false_iff_not, not_lt]
      exact le_total _ _
  have fresh : (byName nodes).Pairwise fun x y => x.textAt "name" ≠ y.textAt "name" :=
    List.pairwise_map.mp (((byName_perm nodes).map _).nodup_iff.mpr distinct)
  exact (sorted.and fresh).imp fun h => lt_of_le_of_ne h.1 h.2

/-- Nodes of names of their own are sorted the same in whatever order they come. -/
theorem byName_eq_of_perm {nodes others : List Serde} (perm : nodes.Perm others)
    (distinct : (namesOf nodes).Nodup) : byName nodes = byName others := by
  have distinct' : (namesOf others).Nodup := (perm.map _).nodup_iff.mp distinct
  apply eq_of_ascending (·.textAt "name") (byName_ascending distinct) (byName_ascending distinct')
  intro node
  rw [(byName_perm nodes).mem_iff, (byName_perm others).mem_iff, perm.mem_iff]

/-- Nodes of the same names that are read the same are read the same once sorted. -/
theorem byName_map_congr {α : Type} {nodes others : List Serde} {f : Serde → α}
    (same : List.Forall₂ (fun x y => x.textAt "name" = y.textAt "name" ∧ f x = f y) nodes others) :
    (byName nodes).map f = (byName others).map f := by
  rw [← sortByName_map, ← sortByName_map]
  congr 2
  induction same with
  | nil => rfl
  | cons head _ ih => rw [List.map_cons, List.map_cons, head.1, head.2, ih]

/-! ### Reordering -/

/-- The lists the text holds in no order. -/
def orderless : List String := ["aggregates", "attributes", "value_objects", "entities"]

/-- Somewhere in a document, one of these lists, its names distinct, is put in another order. -/
inductive Reordered : Serde → Serde → Prop
  | order {before after : List (String × Serde)} {key : String} {items items' : List Serde}
      (known : key ∈ orderless) (perm : items.Perm items') (distinct : (namesOf items).Nodup) :
      Reordered (.object (before ++ (key, .array items) :: after))
        (.object (before ++ (key, .array items') :: after))
  | inside {before after : List (String × Serde)} {key : String} {front back : List Serde}
      {item item' : Serde} (known : key ∈ orderless) (inner : Reordered item item') :
      Reordered (.object (before ++ (key, .array (front ++ item :: back)) :: after))
        (.object (before ++ (key, .array (front ++ item' :: back)) :: after))

section

variable (before after : List (String × Serde)) (key : String)

theorem get_other {other : String} (value value' : Serde) (h : other ≠ key) :
    (Serde.object (before ++ (key, value) :: after)).get other =
      (Serde.object (before ++ (key, value') :: after)).get other := by
  simp [Serde.get, List.find?_append, Ne.symm h]

theorem get_same (value value' : Serde) :
    (Serde.object (before ++ (key, value) :: after)).get key =
        (Serde.object (before ++ (key, value') :: after)).get key ∨
      (Serde.object (before ++ (key, value) :: after)).get key = some value ∧
        (Serde.object (before ++ (key, value') :: after)).get key = some value' := by
  cases found : before.find? fun f => f.1 = key with
  | some field => simp [Serde.get, List.find?_append, found]
  | none => simp [Serde.get, List.find?_append, found]

/-- The lists of two objects that differ in one list under a key. -/
theorem itemsAt_split (items items' : List Serde) (other : String) :
    (Serde.object (before ++ (key, .array items) :: after)).itemsAt other =
        (Serde.object (before ++ (key, .array items') :: after)).itemsAt other ∨
      (Serde.object (before ++ (key, .array items) :: after)).itemsAt other = items ∧
        (Serde.object (before ++ (key, .array items') :: after)).itemsAt other = items' := by
  unfold Serde.itemsAt
  by_cases h : other = key
  · subst h
    obtain same | ⟨first, second⟩ := get_same before after other (.array items) (.array items')
    · exact .inl (by rw [same])
    · exact .inr (by rw [first, second]; exact ⟨rfl, rfl⟩)
  · exact .inl (by rw [get_other before after key (.array items) (.array items') h])

end

/-! ### What a reordering leaves as it is -/

/-- All that the text reads is the same in both. -/
structure Steady (a b : Serde) : Prop where
  read : ∀ key ∉ orderless, a.get key = b.get key
  members : membersOf a = membersOf b
  types : ∀ t, (nestedType a t).map membersOf = (nestedType b t).map membersOf
  portraits : (byName (a.itemsAt "aggregates")).map portrait =
    (byName (b.itemsAt "aggregates")).map portrait

section

variable {a b : Serde}

theorem Steady.refl (a : Serde) : Steady a a := ⟨fun _ _ => rfl, rfl, fun _ => rfl, rfl⟩

theorem Steady.textAt (same : Steady a b) {key : String} (h : key ∉ orderless) :
    a.textAt key = b.textAt key := by
  rw [Serde.textAt, Serde.textAt, same.read key h]

theorem Steady.name (same : Steady a b) : a.textAt "name" = b.textAt "name" :=
  same.textAt (by decide)

theorem Steady.isNamed (same : Steady a b) (t : String) : a.isNamed t = b.isNamed t := by
  rw [Serde.isNamed, Serde.isNamed, same.read "name" (by decide)]

theorem Steady.labelOf (same : Steady a b) : labelOf a = labelOf b := by
  rw [StorageShape.labelOf, StorageShape.labelOf, Serde.flagAt, Serde.flagAt, same.name,
    same.read "list" (by decide)]

theorem Steady.portrait (same : Steady a b) : portrait a = portrait b := by
  rw [portrait_eq_iff]
  constructor
  · rw [headOf, headOf, same.name, identityOf, identityOf, lifecycleField, lifecycleField,
      same.read "identified_by" (by decide), same.read "lifecycle" (by decide)]
  · intro n
    have types : (fun t => (nestedType a t).map membersOf) =
        fun t => (nestedType b t).map membersOf := funext same.types
    rw [recordShape, recordShape, same.name, same.members, types]

theorem find?_map_congr {α : Type} {xs ys : List Serde} {f : Serde → α} {t : String}
    (same : List.Forall₂ (fun x y => x.isNamed t = y.isNamed t ∧ f x = f y) xs ys) :
    (xs.find? fun x => x.isNamed t).map f = (ys.find? fun y => y.isNamed t).map f := by
  induction same with
  | nil => rfl
  | cons head _ ih =>
    obtain ⟨named, equal⟩ := head
    rw [List.find?_cons, List.find?_cons, ← named]
    split
    · exact congrArg some equal
    · exact ih

theorem textAt_of_isNamed {node : Serde} {t : String} (named : node.isNamed t = true) :
    node.textAt "name" = t := by
  rw [Serde.textAt, of_decide_eq_true named]
  rfl

/-- Of nodes with names of their own, at most one is found, in whatever order they come. -/
theorem find?_eq_of_perm {xs ys : List Serde} (perm : xs.Perm ys) (distinct : (namesOf xs).Nodup)
    (t : String) : (xs.find? fun x => x.isNamed t) = ys.find? fun y => y.isNamed t := by
  cases found : xs.find? fun x => x.isNamed t with
  | none =>
    have absent := List.find?_eq_none.mp found
    exact (List.find?_eq_none.mpr fun y mem => absent y (perm.mem_iff.mpr mem)).symm
  | some x =>
    cases found' : ys.find? fun y => y.isNamed t with
    | none =>
      have absent := List.find?_eq_none.mp found' x
        (perm.mem_iff.mp (List.mem_of_find?_eq_some found))
      exact absurd (List.find?_some found) absent
    | some y =>
      have named : x.isNamed t = true := List.find?_some (p := fun x : Serde => x.isNamed t) found
      have named' : y.isNamed t = true := List.find?_some (p := fun y : Serde => y.isNamed t) found'
      have names : x.textAt "name" = y.textAt "name" :=
        (textAt_of_isNamed named).trans (textAt_of_isNamed named').symm
      have mem := perm.mem_iff.mpr (List.mem_of_find?_eq_some found')
      rw [List.inj_on_of_nodup_map distinct (List.mem_of_find?_eq_some found) mem names]

theorem steady_of_forall₂ (read : ∀ key ∉ orderless, a.get key = b.get key)
    (items : ∀ key, List.Forall₂ Steady (a.itemsAt key) (b.itemsAt key)) : Steady a b := by
  refine ⟨read, ?_, ?_, ?_⟩
  · apply byName_map_congr
    apply (items "attributes").imp
    intro x y same
    exact ⟨same.name, Prod.ext same.labelOf (same.textAt (by decide))⟩
  · intro t
    have found : ∀ key, ((a.itemsAt key).find? fun x => x.isNamed t).map membersOf =
        ((b.itemsAt key).find? fun y => y.isNamed t).map membersOf := by
      intro key
      apply find?_map_congr
      exact (items key).imp fun _ _ same => ⟨same.isNamed t, same.members⟩
    simp only [nestedType, Option.map_or, found]
  · apply byName_map_congr
    exact (items "aggregates").imp fun _ _ same => ⟨same.name, same.portrait⟩

theorem steady_of_perm (read : ∀ key ∉ orderless, a.get key = b.get key)
    (items : ∀ key, a.itemsAt key = b.itemsAt key ∨
      (a.itemsAt key).Perm (b.itemsAt key) ∧ (namesOf (a.itemsAt key)).Nodup) : Steady a b := by
  have sorted : ∀ key, byName (a.itemsAt key) = byName (b.itemsAt key) := by
    intro key
    obtain same | ⟨perm, distinct⟩ := items key
    · rw [same]
    · exact byName_eq_of_perm perm distinct
  have found : ∀ key t, ((a.itemsAt key).find? fun x => x.isNamed t) =
      (b.itemsAt key).find? fun y => y.isNamed t := by
    intro key t
    obtain same | ⟨perm, distinct⟩ := items key
    · rw [same]
    · exact find?_eq_of_perm perm distinct t
  refine ⟨read, ?_, ?_, ?_⟩
  · rw [membersOf, membersOf, sorted]
  · intro t
    simp only [nestedType, found]
  · rw [sorted]

theorem Reordered.steady (step : Reordered a b) : Steady a b := by
  induction step with
  | @order before after key items items' known perm distinct =>
    apply steady_of_perm
    · intro other h
      exact get_other _ _ _ _ _ fun same => h (same ▸ known)
    · intro other
      obtain same | ⟨first, second⟩ := itemsAt_split before after key items items' other
      · exact .inl same
      · rw [first, second]
        exact .inr ⟨perm, distinct⟩
  | @inside before after key front back item item' known _ ih =>
    have unchanged : ∀ items : List Serde, List.Forall₂ Steady items items := fun items =>
      List.forall₂_same.mpr fun item _ => Steady.refl item
    apply steady_of_forall₂
    · intro other h
      exact get_other _ _ _ _ _ fun same => h (same ▸ known)
    · intro other
      obtain same | ⟨first, second⟩ := itemsAt_split before after key (front ++ item :: back)
        (front ++ item' :: back) other
      · rw [same]
        exact unchanged _
      · rw [first, second]
        exact List.rel_append (unchanged front) (.cons ih (unchanged back))

/-- No run of reorderings shows in the text. -/
theorem canonical_of_reordered (run : ReflTransGen Reordered a b) : canonical a = canonical b := by
  induction run with
  | refl => rfl
  | tail _ step ih =>
    rw [ih, canonical_eq_iff]
    exact ⟨step.steady.name, step.steady.portraits⟩

end

/-! ### The projection -/

/-- What a bluebook is stored as: its name, and its aggregates, each with its name, its identity in
order, its lifecycle field, and its attributes with their types written out. Lists are in the order
of the names, entries of one name in the order declared. -/
def projection (ir : Serde) : String × List Portrait :=
  (ir.textAt "name", (byName (ir.itemsAt "aggregates")).map portrait)

def declaredMembers (container : Serde) : List (Label × String) :=
  (container.itemsAt "attributes").map fun attr => (labelOf attr, attr.textAt "type")

/-- The types of an aggregate, their members in the order declared. -/
def typesOf (aggregate : Serde) : Declarations String Label where
  names := localNames aggregate
  members t := (nestedType aggregate t).map declaredMembers
  named h := by
    obtain ⟨container, found, -⟩ := Option.map_eq_some_iff.mp h
    exact mem_localNames found

/-- The attributes of an aggregate with their types written out. -/
def attributesOf (aggregate : Serde) : List (Label × Tree String Label) :=
  (declaredMembers aggregate).map fun m => (m.1, written (typesOf aggregate) [] m.2)

/-- Two aggregates project to the same, attributes and members read as sets. -/
structure SameAggregate (x y : Serde) : Prop where
  head : headOf x = headOf y
  forth : ∀ m ∈ attributesOf x, ∃ n ∈ attributesOf y, n.1 = m.1 ∧ m.2.Alike n.2
  back : ∀ n ∈ attributesOf y, ∃ m ∈ attributesOf x, n.1 = m.1 ∧ m.2.Alike n.2

/-- Two bluebooks project to the same, aggregates, attributes and members read as sets. -/
structure SameProjection (a b : Serde) : Prop where
  name : a.textAt "name" = b.textAt "name"
  forth : ∀ x ∈ a.itemsAt "aggregates", ∃ y ∈ b.itemsAt "aggregates", SameAggregate x y
  back : ∀ y ∈ b.itemsAt "aggregates", ∃ x ∈ a.itemsAt "aggregates", SameAggregate x y

/-- No two attributes of an aggregate or of a type it declares share a name. -/
structure MembersDistinct (aggregate : Serde) : Prop where
  own : (namesOf (aggregate.itemsAt "attributes")).Nodup
  types : ∀ container ∈ aggregate.itemsAt "value_objects" ++ aggregate.itemsAt "entities",
    (namesOf (container.itemsAt "attributes")).Nodup

structure NamesDistinct (ir : Serde) : Prop where
  aggregates : (namesOf (ir.itemsAt "aggregates")).Nodup
  members : ∀ aggregate ∈ ir.itemsAt "aggregates", MembersDistinct aggregate

theorem byName_members {container : Serde}
    (distinct : (namesOf (container.itemsAt "attributes")).Nodup) :
    ByName Prod.fst (declaredMembers container) (membersOf container) where
  perm := (byName_perm _).map _
  ascending := List.pairwise_map.mpr (byName_ascending distinct)

theorem nestedType_mem {aggregate container : Serde} {t : String}
    (found : nestedType aggregate t = some container) :
    container ∈ aggregate.itemsAt "value_objects" ++ aggregate.itemsAt "entities" := by
  obtain found | ⟨-, found⟩ := Option.or_eq_some_iff.mp found
  · exact List.mem_append_left _ (List.mem_of_find?_eq_some found)
  · exact List.mem_append_right _ (List.mem_of_find?_eq_some found)

theorem MembersDistinct.listed {aggregate : Serde} (distinct : MembersDistinct aggregate) :
    Listed Prod.fst (typesOf aggregate) (declarations aggregate) where
  names := rfl
  undeclared t h := by
    have absent := Option.map_eq_none_iff.mp h
    exact Option.map_eq_none_iff.mpr absent
  declared t ms h := by
    obtain ⟨container, found, rfl⟩ := Option.map_eq_some_iff.mp h
    exact ⟨membersOf container, Option.map_eq_some_iff.mpr ⟨container, found, rfl⟩,
      byName_members (distinct.types container (nestedType_mem found))⟩

theorem portrait_eq_iff_same {x y : Serde} (distinct : MembersDistinct x)
    (distinct' : MembersDistinct y) : portrait x = portrait y ↔ SameAggregate x y := by
  have attributes := (byName_members distinct.own).map_eq_iff (byName_members distinct'.own)
    (fun m => written (declarations x) [] m.2) (fun n => written (declarations y) [] n.2)
    (fun m => written (typesOf x) [] m.2) (fun n => written (typesOf y) [] n.2)
    Tree.Alike fun m _ n _ => written_eq_iff_alike distinct.listed distinct'.listed
  constructor
  · intro same
    obtain ⟨head, members⟩ := Prod.mk.inj same
    obtain ⟨forth, back⟩ := attributes.mp members
    exact ⟨head, forth, back⟩
  · intro same
    exact Prod.ext same.head (attributes.mpr ⟨same.forth, same.back⟩)

/-- Where names are distinct, the text is that of the projection read as sets. -/
theorem canonical_eq_iff_same {a b : Serde} (distinct : NamesDistinct a)
    (distinct' : NamesDistinct b) : canonical a = canonical b ↔ SameProjection a b := by
  have same : ∀ x ∈ a.itemsAt "aggregates", ∀ y ∈ b.itemsAt "aggregates",
      portrait x = portrait y ↔ SameAggregate x y := fun x mem y mem' =>
    portrait_eq_iff_same (distinct.members x mem) (distinct'.members y mem')
  have listed : ∀ {ir : Serde} {p : Portrait},
      p ∈ (byName (ir.itemsAt "aggregates")).map portrait ↔
        ∃ x ∈ ir.itemsAt "aggregates", portrait x = p := by
    intro ir p
    rw [List.mem_map]
    simp only [(byName_perm _).mem_iff]
  rw [canonical_eq_iff]
  constructor
  · rintro ⟨name, portraits⟩
    refine ⟨name, ?_, ?_⟩
    · intro x mem
      have mem' := listed.mpr ⟨x, mem, rfl⟩
      rw [portraits] at mem'
      obtain ⟨y, held, equal⟩ := listed.mp mem'
      exact ⟨y, held, (same x mem y held).mp equal.symm⟩
    · intro y mem
      have mem' := listed.mpr ⟨y, mem, rfl⟩
      rw [← portraits] at mem'
      obtain ⟨x, held, equal⟩ := listed.mp mem'
      exact ⟨x, held, (same x held y mem).mp equal⟩
  · intro projected
    refine ⟨projected.name, ?_⟩
    apply eq_of_ascending fun p : Portrait => p.1.1
    · exact List.pairwise_map.mpr (byName_ascending distinct.aggregates)
    · exact List.pairwise_map.mpr (byName_ascending distinct'.aggregates)
    · intro p
      rw [listed, listed]
      constructor
      · rintro ⟨x, mem, rfl⟩
        obtain ⟨y, mem', equal⟩ := projected.forth x mem
        exact ⟨y, mem', ((same x mem y mem').mpr equal).symm⟩
      · rintro ⟨y, mem, rfl⟩
        obtain ⟨x, mem', equal⟩ := projected.back y mem
        exact ⟨x, mem', (same x mem' y mem).mpr equal⟩

/-- The text is unchanged by reorderings, is that of the projection in the order of the names, and,
where names are distinct, that of the projection read as sets. -/
theorem canonical_iff_projection (a b : Serde) :
    (ReflTransGen Reordered a b → canonical a = canonical b) ∧
      (canonical a = canonical b ↔ projection a = projection b) ∧
      (NamesDistinct a → NamesDistinct b → (canonical a = canonical b ↔ SameProjection a b)) := by
  refine ⟨canonical_of_reordered, ?_, canonical_eq_iff_same⟩
  rw [canonical_eq_iff, projection, projection, Prod.mk.injEq]

/-- A till of two attributes, each a name and a type. -/
def till (first second : String × String) : Serde :=
  let attr := fun named : String × String =>
    Serde.object [("name", .string named.1), ("type", .string named.2)]
  .object [("name", .string "Till"), ("attributes", .array [attr first, attr second])]

def shop (aggregate : Serde) : Serde :=
  .object [("name", .string "Shop"), ("aggregates", .array [aggregate])]

theorem attributesOf_till (first second : String × String) :
    attributesOf (till first second) =
      [((first.1, false), .leaf first.2), ((second.1, false), .leaf second.2)] := by
  have bare : ∀ t, written (typesOf (till first second)) [] t = .leaf t := fun t =>
    written_undeclared rfl
  have declared : declaredMembers (till first second) =
      [((first.1, false), first.2), ((second.1, false), second.2)] := rfl
  rw [attributesOf, declared]
  simp [bare]

theorem portrait_till (first second : String) :
    portrait (till ("amount", first) ("amount", second)) = (("Till", [], none),
      [(("amount", false), .leaf first), (("amount", false), .leaf second)]) := by
  have bare : ∀ t, written (declarations (till ("amount", first) ("amount", second))) [] t =
      .leaf t := fun t => written_undeclared rfl
  have sorted : byName ((till ("amount", first) ("amount", second)).itemsAt "attributes") =
      (till ("amount", first) ("amount", second)).itemsAt "attributes" :=
    List.mergeSort_of_pairwise (List.pairwise_pair.mpr
      (show (!decide ("amount" < "amount")) = true by decide))
  have members : membersOf (till ("amount", first) ("amount", second)) =
      [(("amount", false), first), (("amount", false), second)] := by
    rw [membersOf, sorted]
    rfl
  rw [portrait, members]
  simp only [List.map_cons, List.map_nil, bare]
  rfl

theorem byName_shop (aggregate : Serde) :
    byName ((shop aggregate).itemsAt "aggregates") = [aggregate] := List.mergeSort_singleton _

/-- Two attributes of one name are the same set in either order, but not the same text. -/
theorem till_order_shows :
    SameProjection (shop (till ("amount", "Integer") ("amount", "String")))
        (shop (till ("amount", "String") ("amount", "Integer"))) ∧
      canonical (shop (till ("amount", "Integer") ("amount", "String"))) ≠
        canonical (shop (till ("amount", "String") ("amount", "Integer"))) := by
  constructor
  · have same : SameAggregate (till ("amount", "Integer") ("amount", "String"))
        (till ("amount", "String") ("amount", "Integer")) := by
      refine ⟨rfl, ?_, ?_⟩ <;> simp [attributesOf_till]
    refine ⟨rfl, ?_, ?_⟩
    · intro x mem
      obtain rfl := List.mem_singleton.mp mem
      exact ⟨_, List.mem_singleton_self _, same⟩
    · intro y mem
      obtain rfl := List.mem_singleton.mp mem
      exact ⟨_, List.mem_singleton_self _, same⟩
  · intro same
    have portraits := (canonical_eq_iff _ _).mp same
    simp [byName_shop, portrait_till] at portraits

theorem till_distinct {first second : String × String} (apart : first.1 ≠ second.1) :
    NamesDistinct (shop (till first second)) where
  aggregates := List.nodup_singleton _
  members aggregate mem := by
    obtain rfl := List.mem_singleton.mp mem
    refine ⟨List.nodup_cons.mpr ⟨?_, List.nodup_singleton _⟩, nofun⟩
    intro mem
    exact apart (List.mem_singleton.mp mem)

/-- A till's amount and note in either order. -/
theorem till_reordered :
    canonical (shop (till ("amount", "Integer") ("note", "String"))) =
        canonical (shop (till ("note", "String") ("amount", "Integer"))) ∧
      SameProjection (shop (till ("amount", "Integer") ("note", "String")))
        (shop (till ("note", "String") ("amount", "Integer"))) := by
  obtain ⟨reordered, -, sets⟩ :=
    canonical_iff_projection (shop (till ("amount", "Integer") ("note", "String")))
      (shop (till ("note", "String") ("amount", "Integer")))
  have step : Reordered (till ("amount", "Integer") ("note", "String"))
      (till ("note", "String") ("amount", "Integer")) :=
    @Reordered.order [("name", .string "Till")] [] "attributes" _ _ (by decide) (.swap _ _ _)
      (by decide)
  have same := reordered (.single
    (@Reordered.inside [("name", .string "Shop")] [] "aggregates" [] [] _ _ (by decide) step))
  exact ⟨same, (sets (till_distinct (by decide)) (till_distinct (by decide))).mp same⟩

end Hecks.Host.StorageShape
