import Hecks.Query.Nesting

/-! Where the rows of a nested report stand: the grouping against the rows' own values. -/
namespace Hecks.Query

open Grouping (group Recognised Sorted classes firsts)

section

variable {done fields : List String} {field : String} {row : Json} {rows : List Json}

/-! ### Rows without the fields above -/

theorem fieldOf_stripped (field other : String) (row : Json) :
    fieldOf (stripped field row) other = if other = field then .null else fieldOf row other := by
  cases row with
  | object pairs =>
    have named : ∀ pairs : List (String × Json), fieldOf (.object pairs) other =
        ((pairs.find? fun p => p.1 = other).map (·.2)).getD .null := fun _ => rfl
    rw [stripped, named, named, List.find?_filter]
    by_cases same : other = field
    · subst same
      rw [if_pos rfl, List.find?_eq_none.mpr (by simp)]
      rfl
    · rw [if_neg same]
      congr 3
      funext p
      by_cases found : p.1 = other
      · simp [found, same]
      · simp [found]
  | _ => simp [stripped, fieldOf, Json.get]

theorem strippedOf_snoc : strippedOf (done ++ [field]) row = stripped field (strippedOf done row) :=
  List.foldl_concat _ _ _ _

theorem fieldOf_strippedOf : fieldOf (strippedOf done row) field = valueAt done field row := by
  induction done using List.reverseRecOn with
  | nil => rfl
  | append_singleton done last ih =>
    rw [strippedOf_snoc, fieldOf_stripped, ih]
    unfold valueAt
    by_cases same : field = last
    · simp [same]
    · simp [same]

theorem grouped_strippedOf : grouped field (rows.map (strippedOf done)) =
    (group (valueAt done field) Json.eq rows).map fun g =>
      (g.1, g.2.map (strippedOf (done ++ [field]))) := by
  unfold grouped
  rw [Grouping.group_map]
  simp only [fieldOf_strippedOf, List.map_map]
  apply List.map_congr_left
  intro g _
  simp [strippedOf_snoc, Function.comp_def]

/-! ### The tree of an answered grouping -/

/-- The tree answers for the rows, level by level. -/
def Answers (answer : Leaf) (done : List String) : List String → List Json → Json → Prop
  | [], rows, tree => tree = answerOf answer (rows.map (strippedOf done)) ∧
      ∀ readModel, answer = .row (.refuseCollision readModel) → rows.length ≤ 1
  | field :: rest, rows, tree => ∃ pairs, tree = .object pairs ∧
      List.Forall₂ (fun g p => p.1 = toS g.1 ∧ Answers answer (done ++ [field]) rest g.2 p.2)
        (group (valueAt done field) Json.eq rows) pairs

variable {escapes : Char → Bool} {allFields : List String} {answer : Leaf}
  {reached path : List (String × Json)} {tree : Json}

theorem leaf_answers {check : LeafCheck}
    (answered : leaf escapes allFields (rows.map (strippedOf done)) check path = .ok tree) :
    Answers (.row check) done [] rows tree := by
  unfold leaf at answered
  cases check with
  | identityCovered =>
    cases answered
    refine ⟨rfl, ?_⟩
    rintro readModel ⟨⟩
  | refuseCollision readModel =>
    dsimp only at answered
    split at answered
    · cases answered
    next short =>
      cases answered
      refine ⟨rfl, fun _ _ => ?_⟩
      rw [List.length_map] at short
      omega

theorem nestLevel_answers
    (answered : nestLevel escapes allFields answer (field :: fields) reached
      (rows.map (strippedOf done)) = .ok tree) :
    Answers answer done (field :: fields) rows tree := by
  induction fields generalizing field done reached rows tree with
  | nil =>
    rw [nestLevel, grouped_strippedOf] at answered
    obtain ⟨out, mapped, answered⟩ := Reading.bind_eq_ok.mp answered
    cases answered
    refine ⟨out, rfl, ?_⟩
    have each := List.forall₂_map_left_iff.mp (Reading.forall₂_of_mapM mapped)
    apply each.imp
    rintro ⟨key, held⟩ pair step
    obtain ⟨value, valued, step⟩ := Reading.bind_eq_ok.mp step
    cases step
    refine ⟨rfl, ?_⟩
    change leafAnswer escapes allFields answer _ _ = .ok value at valued
    cases answer with
    | row check => exact leaf_answers valued
    | reduce reduction =>
      cases valued
      refine ⟨rfl, ?_⟩
      rintro readModel ⟨⟩
  | cons next fields ih =>
    rw [nestLevel, grouped_strippedOf] at answered
    obtain ⟨out, mapped, answered⟩ := Reading.bind_eq_ok.mp answered
    cases answered
    refine ⟨out, rfl, ?_⟩
    have each := List.forall₂_map_left_iff.mp (Reading.forall₂_of_mapM mapped)
    apply each.imp
    rintro ⟨key, held⟩ pair step
    obtain ⟨value, valued, step⟩ := Reading.bind_eq_ok.mp step
    cases step
    exact ⟨rfl, ih valued⟩

/-! ### The leaves -/

theorem flatMap_of_forall₂ {α β γ : Type} {r : α → β → Prop} {as : List α} {bs : List β}
    {f : β → List γ} {h : α → List γ} (each : List.Forall₂ r as bs)
    (same : ∀ a b, r a b → f b = h a) : bs.flatMap f = as.flatMap h := by
  induction each with
  | nil => rfl
  | cons first _ ih => rw [List.flatMap_cons, List.flatMap_cons, same _ _ first, ih]

theorem exists_right {α β : Type} {r : α → β → Prop} {as : List α} {bs : List β}
    (each : List.Forall₂ r as bs) {a : α} (mem : a ∈ as) : ∃ b ∈ bs, r a b := by
  induction each with
  | nil => cases mem
  | cons first _ ih =>
    rcases List.mem_cons.mp mem with rfl | mem
    · exact ⟨_, List.mem_cons_self, first⟩
    · obtain ⟨b, later, related⟩ := ih mem
      exact ⟨b, List.mem_cons_of_mem _ later, related⟩

/-- Every row is in one leaf. -/
theorem leavesOf_perm (done fields : List String) (rows : List Json) :
    ((leavesOf done fields rows).flatMap (·.2)).Perm rows := by
  induction fields generalizing done rows with
  | nil => simp [leavesOf]
  | cons field rest ih =>
    have inner : ∀ g : Json × List Json, (((leavesOf (done ++ [field]) rest g.2).map
        fun l => (g.1 :: l.1, l.2)).flatMap (·.2)).Perm g.2 := by
      intro g
      rw [List.flatMap_map]
      exact ih (done ++ [field]) g.2
    rw [leavesOf, List.flatMap_assoc]
    exact (List.Perm.flatMap_left _ fun g _ => inner g).trans (Grouping.group_perm rows)

theorem treeLeaves_eq (answers : Answers answer done fields rows tree) :
    treeLeaves fields.length tree = (leavesOf done fields rows).map fun l =>
      (l.1.map toS, answerOf answer (l.2.map (strippedOf (done ++ fields)))) := by
  induction fields generalizing done rows tree with
  | nil =>
    rw [answers.1]
    simp [treeLeaves, leavesOf]
  | cons field rest ih =>
    obtain ⟨pairs, rfl, each⟩ := answers
    rw [List.length_cons, treeLeaves, leavesOf, List.map_flatMap]
    apply flatMap_of_forall₂ each
    rintro g p ⟨text, answers⟩
    rw [ih answers, text, List.map_map, List.map_map]
    simp [Function.comp_def]

/-- A leaf that is checked was reached by one row. -/
theorem leaves_checked {readModel : String}
    (answers : Answers (.row (.refuseCollision readModel)) done fields rows tree) :
    ∀ l ∈ leavesOf done fields rows, l.2.length ≤ 1 := by
  induction fields generalizing done rows tree with
  | nil =>
    intro l mem
    rw [List.mem_singleton.mp mem]
    exact answers.2 readModel rfl
  | cons field rest ih =>
    obtain ⟨pairs, -, each⟩ := answers
    intro l mem
    obtain ⟨g, grouped, mem⟩ := List.mem_flatMap.mp mem
    obtain ⟨under, below, rfl⟩ := List.mem_map.mp mem
    obtain ⟨p, -, -, answers⟩ := exists_right each grouped
    exact ih answers under below

/-! ### One level -/

/-- The rows of each group stand under its text, and no two groups have one. -/
structure LevelSorted (done : List String) (field : String) (rows : List Json) : Prop where
  apart : ((group (valueAt done field) Json.eq rows).map fun g => toS g.1).Nodup
  own : ∀ g ∈ group (valueAt done field) Json.eq rows, ∀ row ∈ g.2,
    toS (fieldOf row field) = toS g.1

/-- The groups are the rows of one text each. -/
structure LevelClasses (done : List String) (field : String) (rows : List Json) : Prop where
  held : ∀ g ∈ group (valueAt done field) Json.eq rows, ∃ r ∈ rows,
    toS g.1 = toS (fieldOf r field) ∧
      g.2 = rows.filter fun s => toS (fieldOf s field) = toS (fieldOf r field)
  every : ∀ r ∈ rows, ∃ g ∈ group (valueAt done field) Json.eq rows,
    toS g.1 = toS (fieldOf r field) ∧
      g.2 = rows.filter fun s => toS (fieldOf s field) = toS (fieldOf r field)

/-- A field grouped by before puts all rows under the text of null. -/
theorem group_done (again : field ∈ done) :
    group (valueAt done field) Json.eq rows = if rows = [] then [] else [(.null, rows)] := by
  have value : valueAt done field = fun _ => Json.null := by
    funext row
    exact if_pos again
  rw [value]
  induction rows using List.reverseRecOn with
  | nil => rfl
  | append_singleton rows row ih =>
    rw [Grouping.group_snoc, ih]
    cases rows with
    | nil => rfl
    | cons first rows => rfl

theorem valueAt_new (fresh : field ∉ done) : valueAt done field = (fieldOf · field) := by
  funext row
  exact if_neg fresh

theorem levelSorted_iff : LevelSorted done field rows ↔ LevelTold done field rows := by
  unfold LevelTold
  by_cases again : field ∈ done
  · rw [if_pos again]
    have groups : group (valueAt done field) Json.eq rows =
        if rows = [] then [] else [(.null, rows)] := group_done again
    constructor
    · intro sorted row mem
      have own := sorted.own
      rw [groups, if_neg (List.ne_nil_of_mem mem)] at own
      exact own _ (List.mem_singleton_self _) row mem
    · intro blank
      constructor
      · rw [groups]
        split
        · exact List.nodup_nil
        · exact List.nodup_singleton _
      · rw [groups]
        intro g mem row inside
        split at mem
        · cases mem
        · rw [List.mem_singleton.mp mem] at inside ⊢
          exact blank row inside
  · rw [if_neg again, ← Grouping.group_sorted_iff]
    rw [← valueAt_new again]
    constructor
    · rintro ⟨apart, own⟩
      rw [valueAt_new again] at own ⊢
      exact ⟨valueAt_new again ▸ apart, own⟩
    · rintro ⟨apart, own⟩
      refine ⟨apart, ?_⟩
      rw [valueAt_new again] at own ⊢
      exact own

theorem levelClasses_of_told (told : LevelTold done field rows) : LevelClasses done field rows := by
  unfold LevelTold at told
  by_cases again : field ∈ done
  · rw [if_pos again] at told
    have groups : group (valueAt done field) Json.eq rows =
        if rows = [] then [] else [(.null, rows)] := group_done again
    have whole : ∀ r ∈ rows, rows = rows.filter fun s =>
        toS (fieldOf s field) = toS (fieldOf r field) := by
      intro r mem
      apply Eq.symm
      apply List.filter_eq_self.mpr
      intro s mem'
      rw [told r mem, told s mem']
      rfl
    constructor
    · rw [groups]
      intro g mem
      split at mem
      · cases mem
      next filled =>
        rw [List.mem_singleton.mp mem]
        obtain ⟨r, inside⟩ := List.exists_mem_of_ne_nil rows filled
        exact ⟨r, inside, (told r inside).symm, whole r inside⟩
    · intro r inside
      rw [groups, if_neg (List.ne_nil_of_mem inside)]
      exact ⟨_, List.mem_singleton_self _, (told r inside).symm, whole r inside⟩
  · rw [if_neg again] at told
    have groups : group (valueAt done field) Json.eq rows = classes (fieldOf · field) toS rows := by
      rw [valueAt_new again]
      exact Grouping.group_eq_classes told
    constructor
    · rw [groups]
      intro g mem
      obtain ⟨r, first, rfl⟩ := List.mem_map.mp mem
      exact ⟨r, Grouping.mem_of_mem_firsts first, rfl, rfl⟩
    · intro r inside
      obtain ⟨q, first, own⟩ : ∃ q ∈ firsts (fieldOf · field) toS rows,
          toS (fieldOf q field) = toS (fieldOf r field) := Grouping.exists_first inside
      rw [groups]
      refine ⟨_, List.mem_map.mpr ⟨q, first, rfl⟩, own, ?_⟩
      simp only [own]

/-! ### All levels -/

theorem exists_left {α β : Type} {r : α → β → Prop} {as : List α} {bs : List β}
    (each : List.Forall₂ r as bs) {b : β} (mem : b ∈ bs) : ∃ a ∈ as, r a b :=
  exists_right each.flip mem

/-- A row of a group is in a leaf below it. -/
theorem mem_leaf_below {g : Json × List Json} (rest : List String)
    (grouped : g ∈ group (valueAt done field) Json.eq rows) (inside : row ∈ g.2) :
    ∃ l : List Json × List Json, row ∈ l.2 ∧
      (g.1 :: l.1, l.2) ∈ leavesOf done (field :: rest) rows := by
  obtain ⟨l, below, held⟩ := List.mem_flatMap.mp
    ((leavesOf_perm (done ++ [field]) rest g.2).mem_iff.mpr inside)
  refine ⟨l, held, ?_⟩
  rw [leavesOf]
  exact List.mem_flatMap.mpr ⟨g, grouped, List.mem_map.mpr ⟨l, below, rfl⟩⟩

/-- The keys of a tree are distinct and its rows stand under their own texts just where values and
texts tell the same apart. -/
theorem told_iff_placed (answers : Answers answer done fields rows tree) :
    (DistinctKeys fields.length tree ∧
      ∀ l ∈ leavesOf done fields rows, ∀ row ∈ l.2, textsOf fields row = l.1.map toS) ↔
      Told done fields rows := by
  induction fields generalizing done rows tree with
  | nil =>
    refine ⟨fun _ => trivial, fun _ => ⟨trivial, ?_⟩⟩
    intro l mem row _
    rw [List.mem_singleton.mp mem]
    rfl
  | cons field rest ih =>
    obtain ⟨pairs, rfl, each⟩ := answers
    have keys : pairs.map (·.1) =
        (group (valueAt done field) Json.eq rows).map fun g => toS g.1 := by
      rw [List.map_eq_flatMap, List.map_eq_flatMap]
      exact flatMap_of_forall₂ each fun g p related => by rw [related.1]
    constructor
    · rintro ⟨⟨apart, deeper⟩, own⟩
      have sorted : LevelSorted done field rows := by
        refine ⟨keys ▸ apart, ?_⟩
        intro g grouped row inside
        obtain ⟨l, held, mem⟩ := mem_leaf_below rest grouped inside
        exact (List.cons.inj (own _ mem row held)).1
      have told := levelSorted_iff.mp sorted
      refine ⟨told, ?_⟩
      intro r mem
      obtain ⟨g, grouped, -, held⟩ := (levelClasses_of_told told).every r mem
      obtain ⟨p, paired, -, below⟩ := exists_right each grouped
      rw [← held]
      apply (ih below).mp
      refine ⟨deeper p paired, ?_⟩
      intro l under row inside
      have leaf : (g.1 :: l.1, l.2) ∈ leavesOf done (field :: rest) rows := by
        rw [leavesOf]
        exact List.mem_flatMap.mpr ⟨g, grouped, List.mem_map.mpr ⟨l, under, rfl⟩⟩
      exact (List.cons.inj (own _ leaf row inside)).2
    · rintro ⟨told, deeper⟩
      have sorted := levelSorted_iff.mpr told
      have below : ∀ g ∈ group (valueAt done field) Json.eq rows,
          Told (done ++ [field]) rest g.2 := by
        intro g grouped
        obtain ⟨r, mem, -, held⟩ := (levelClasses_of_told told).held g grouped
        rw [held]
        exact deeper r mem
      refine ⟨⟨keys ▸ sorted.apart, ?_⟩, ?_⟩
      · intro p paired
        obtain ⟨g, grouped, -, answers⟩ := exists_left each paired
        exact ((ih answers).mpr (below g grouped)).1
      · intro l mem row inside
        rw [leavesOf] at mem
        obtain ⟨g, grouped, mem⟩ := List.mem_flatMap.mp mem
        obtain ⟨under, lower, rfl⟩ := List.mem_map.mp mem
        obtain ⟨p, -, -, answers⟩ := exists_right each grouped
        have rest := ((ih answers).mpr (below g grouped)).2 under lower row inside
        have held : row ∈ g.2 := (leavesOf_perm _ _ g.2).mem_iff.mp
          (List.mem_flatMap.mpr ⟨under, lower, inside⟩)
        show toS (fieldOf row field) :: textsOf _ row = toS g.1 :: under.1.map toS
        rw [sorted.own g grouped row held, rest]

/-- Where values and texts tell the same apart, the rows of a leaf are those of its texts. -/
theorem leaf_eq_filter (told : Told done fields rows) :
    ∀ l ∈ leavesOf done fields rows, ∀ r ∈ l.2,
      l.2 = rows.filter fun s => textsOf fields s = textsOf fields r := by
  induction fields generalizing done rows with
  | nil =>
    intro l mem r _
    rw [List.mem_singleton.mp mem]
    simp [textsOf]
  | cons field rest ih =>
    intro l mem r inside
    rw [leavesOf] at mem
    obtain ⟨g, grouped, mem⟩ := List.mem_flatMap.mp mem
    obtain ⟨under, lower, rfl⟩ := List.mem_map.mp mem
    obtain ⟨q, first, -, held⟩ := (levelClasses_of_told told.1).held g grouped
    have below : Told (done ++ [field]) rest g.2 := by
      rw [held]
      exact told.2 q first
    have inGroup : r ∈ g.2 := (leavesOf_perm _ _ g.2).mem_iff.mp
      (List.mem_flatMap.mpr ⟨under, lower, inside⟩)
    have own : toS (fieldOf r field) = toS (fieldOf q field) := by
      rw [held] at inGroup
      simpa using List.of_mem_filter inGroup
    show under.2 = _
    rw [ih below under lower r inside, held, List.filter_filter]
    apply List.filter_congr
    intro s _
    simp only [textsOf, List.map_cons, List.cons.injEq, Bool.decide_and, own]
    exact Bool.and_comm _ _

/-! ### Rows of one text path -/

/-- What holds between the rows of one class each holds between all rows of one class. -/
theorem pairwise_classes {α τ : Type} [DecidableEq τ] {text : α → τ} {p : α → α → Prop}
    {xs : List α} (each : ∀ x ∈ xs, (xs.filter fun y => text y = text x).Pairwise p) :
    xs.Pairwise fun x y => text x = text y → p x y := by
  induction xs with
  | nil => exact .nil
  | cons x xs ih =>
    apply List.pairwise_cons.mpr
    constructor
    · intro y mem same
      have own := each x List.mem_cons_self
      rw [List.filter_cons_of_pos (by simp)] at own
      exact (List.pairwise_cons.mp own).1 y (List.mem_filter.mpr ⟨mem, by simp [same]⟩)
    · apply ih
      intro y mem
      exact (each y (List.mem_cons_of_mem _ mem)).sublist ((List.sublist_cons_self x xs).filter _)

theorem leaves_pairwise_iff (told : Told done fields rows) {p : Json → Json → Prop} :
    (∀ l ∈ leavesOf done fields rows, l.2.Pairwise p) ↔
      rows.Pairwise fun r s => textsOf fields r = textsOf fields s → p r s := by
  constructor
  · intro each
    apply pairwise_classes
    intro r mem
    obtain ⟨l, leaf, inside⟩ := List.mem_flatMap.mp
      ((leavesOf_perm done fields rows).mem_iff.mpr mem)
    rw [← leaf_eq_filter told l leaf r inside]
    exact each l leaf
  · intro all l leaf
    cases rows' : l.2 with
    | nil => exact .nil
    | cons r rest =>
      have inside : r ∈ l.2 := rows' ▸ List.mem_cons_self
      rw [← rows', leaf_eq_filter told l leaf r inside]
      apply (all.sublist List.filter_sublist).imp_of_mem
      intro a b ha hb related
      have textA : textsOf fields a = textsOf fields r := by simpa using List.of_mem_filter ha
      have textB : textsOf fields b = textsOf fields r := by simpa using List.of_mem_filter hb
      exact related (textA.trans textB.symm)

theorem length_le_one_iff {α : Type} {xs : List α} :
    xs.length ≤ 1 ↔ xs.Pairwise fun _ _ => False := by
  constructor
  · intro short
    match xs with
    | [] => exact .nil
    | [x] => exact List.pairwise_singleton _ x
    | x :: y :: xs => simp at short
  · intro none
    match xs with
    | [] => exact Nat.zero_le _
    | [x] => exact le_rfl
    | x :: y :: xs => exact ((List.pairwise_cons.mp none).1 y List.mem_cons_self).elim

end

/-- An answered grouping has a leaf for each key path, every row reaches one leaf, and the rows are
all placed under their own values exactly where values and texts tell the same rows apart. -/
theorem nestLevel_placed_iff {escapes : Char → Bool} {allFields fields : List String}
    {answer : Leaf} {rows : List Json} {tree : Json}
    (answered : nestLevel escapes allFields answer fields [] rows = .ok tree) :
    treeLeaves fields.length tree = (leavesOf [] fields rows).map (fun l =>
      (l.1.map toS, answerOf answer (l.2.map (strippedOf fields)))) ∧
    ((leavesOf [] fields rows).flatMap (·.2)).Perm rows ∧
    (Placed answer fields rows tree ↔ Tellable answer fields rows) := by
  cases fields with
  | nil => cases answered
  | cons field fields =>
    have answers : Answers answer [] (field :: fields) rows tree := by
      apply nestLevel_answers
      have same : rows.map (strippedOf []) = rows := List.map_id rows
      rwa [same]
    refine ⟨treeLeaves_eq answers, leavesOf_perm _ _ _, ?_⟩
    constructor
    · rintro ⟨distinct, own, unmerged, shown⟩
      have told := (told_iff_placed answers).mp ⟨distinct, own⟩
      refine ⟨told, (leaves_pairwise_iff told).mp unmerged, ?_⟩
      rintro rfl
      apply (leaves_pairwise_iff told).mp
      intro l mem
      exact length_le_one_iff.mp (shown ⟨_, rfl⟩ l mem)
    · rintro ⟨told, equal, single⟩
      obtain ⟨distinct, own⟩ := (told_iff_placed answers).mpr told
      refine ⟨distinct, own, (leaves_pairwise_iff told).mpr equal, ?_⟩
      rintro ⟨check, rfl⟩ l mem
      cases check with
      | refuseCollision readModel => exact leaves_checked answers l mem
      | identityCovered =>
        apply length_le_one_iff.mpr
        exact (leaves_pairwise_iff told).mpr (single rfl) l mem

/-- Two rows of a report by tag. -/
def tagged (first second : Json) : List Json :=
  [.object [("id", .str "a"), ("tag", first)], .object [("id", .str "b"), ("tag", second)]]

theorem tags_placed_iff :
    Placed (.row (.refuseCollision "Tags")) ["tag"] (tagged (.str "x") (.str "y"))
        (.object [("x", .object [("id", .str "a")]), ("y", .object [("id", .str "b")])]) ↔
      Tellable (.row (.refuseCollision "Tags")) ["tag"] (tagged (.str "x") (.str "y")) := by
  have answered : nestLevel (fun _ => false) ["tag"] (.row (.refuseCollision "Tags")) ["tag"] []
      (tagged (.str "x") (.str "y")) =
        .ok (.object [("x", .object [("id", .str "a")]), ("y", .object [("id", .str "b")])]) := by
    with_unfolding_all rfl
  exact (nestLevel_placed_iff answered).2.2

/-- A row without a tag and a row with a blank one come out under one key twice. -/
theorem blank_tag_twice : ∃ tree, nestLevel (fun _ => false) ["tag"]
      (.row (.refuseCollision "Tags")) ["tag"] [] (tagged .null (.str "")) = .ok tree ∧
    ¬ Placed (.row (.refuseCollision "Tags")) ["tag"] (tagged .null (.str "")) tree := by
  refine ⟨.object [("", .object [("id", .str "a")]), ("", .object [("id", .str "b")])],
    by with_unfolding_all rfl, ?_⟩
  rintro ⟨⟨apart, -⟩, -, -, -⟩
  revert apart
  decide

end Hecks.Query
