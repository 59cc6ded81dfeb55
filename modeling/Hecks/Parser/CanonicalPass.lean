import Hecks.Parser.Durations

/-! The canonical text as one pass over its unquoted runs, and when a second pass changes it. -/

namespace Hecks.Parser.Canonical

open Text (isWhitespace)

variable {words : Words} {token : List Char} {names : List (List Char)} {run : List Char}

/-! ### The rows -/

/-- The rows have names, and no factor has more digits than its name has letters, and one. -/
def Rows (rows : List (String × ℕ)) : Prop :=
  ∀ row ∈ rows, Name row.1.toList ∧ row.2 < 10 ^ (row.1.toList.length + 1)

def scale (words : Words) (rows : List (String × ℕ)) (run : List Char) : List Char :=
  rows.foldl (fun run row => scaleCall words row.1.toList row.2 none run) run

theorem scale_nil (rows : List (String × ℕ)) : scale words rows [] = [] := by
  induction rows with
  | nil => rfl
  | cons row rows ih =>
    rw [scale, List.foldl_cons, scaleCall]
    exact ih

theorem scale_self {rows : List (String × ℕ)}
    (none : ∀ row ∈ rows, ¬ Foldable words row.1.toList none run) : scale words rows run = run := by
  induction rows with
  | nil => rfl
  | cons row rows ih =>
    rw [scale, List.foldl_cons, scaleCall_self (none row List.mem_cons_self)]
    exact ih fun other mem => none other (List.mem_cons_of_mem _ mem)

theorem scale_length {rows : List (String × ℕ)} (isRows : Rows rows) :
    ∀ run, (scale words rows run).length ≤ run.length := by
  induction rows with
  | nil => exact fun _ => Nat.le_refl _
  | cons row rows ih =>
    intro run
    rw [scale, List.foldl_cons]
    have rest := ih (fun other mem => isRows other (List.mem_cons_of_mem _ mem))
      (scaleCall words row.1.toList row.2 none run)
    exact Nat.le_trans rest (scaleCall_length (isRows row List.mem_cons_self).2)

theorem scale_lt {rows : List (String × ℕ)} (isRows : Rows rows)
    (some' : ∃ row ∈ rows, Foldable words row.1.toList none run) :
    (scale words rows run).length < run.length := by
  induction rows with
  | nil =>
    obtain ⟨row, mem, -⟩ := some'
    exact absurd mem List.not_mem_nil
  | cons row rows ih =>
    have later : Rows rows := fun other mem => isRows other (List.mem_cons_of_mem _ mem)
    rw [scale, List.foldl_cons]
    by_cases here : Foldable words row.1.toList none run
    · exact Nat.lt_of_le_of_lt (scale_length later _)
        (scaleCall_lt (isRows row List.mem_cons_self).2 here)
    · rw [scaleCall_self here]
      apply ih later
      obtain ⟨other, mem, foldable⟩ := some'
      rcases List.mem_cons.mp mem with rfl | mem
      · exact absurd foldable here
      · exact ⟨other, mem, foldable⟩

/-- A call that folds after all the rows folds before them, unless calls are nested. -/
theorem foldable_scale {name : List Char} {rows : List (String × ℕ)} (isName : Name name)
    (mem : name ∈ names) (names' : ∀ name ∈ names, Name name)
    (own : ∀ row ∈ rows, row.1.toList ∈ names) :
    ∀ {run}, Foldable words name none (scale words rows run) →
      Nests names run ∨ Foldable words name none run := by
  induction rows with
  | nil => exact fun foldable => .inr foldable
  | cons row rows ih =>
    intro run foldable
    rcases ih (fun other mem => own other (List.mem_cons_of_mem _ mem)) foldable with
      nests | foldable
    · exact .inl (nests_scaleCall names' nests)
    · rcases foldable_scaleCall isName mem (own row List.mem_cons_self) id foldable with
        nests | ⟨-, earlier⟩
      · exact .inl nests
      · exact .inr earlier

/-- Without nested calls the rows leave nothing to fold. -/
theorem not_foldable_scale {rows : List (String × ℕ)} (isName : ∀ name ∈ names, Name name)
    (own : ∀ row ∈ rows, row.1.toList ∈ names) :
    ∀ {run}, ¬ Nests names run →
      ∀ row ∈ rows, ¬ Foldable words row.1.toList none (scale words rows run) := by
  induction rows with
  | nil => exact fun _ row mem => absurd mem List.not_mem_nil
  | cons row rows ih =>
    intro run flat other mem foldable
    have own' : ∀ row ∈ rows, row.1.toList ∈ names :=
      fun later mem => own later (List.mem_cons_of_mem _ mem)
    have flat' : ¬ Nests names (scaleCall words row.1.toList row.2 none run) :=
      fun nests => flat (nests_scaleCall isName nests)
    rcases List.mem_cons.mp mem with rfl | later
    · have isOwn := own other List.mem_cons_self
      rcases foldable_scale (isName _ isOwn) isOwn isName own' foldable with nests | first
      · exact flat' nests
      · rcases foldable_scaleCall (isName _ isOwn) isOwn isOwn id first with nests | ⟨differs, -⟩
        · exact flat nests
        · exact differs rfl
    · exact ih own' flat' other later foldable

theorem scale_collapsed {rows : List (String × ℕ)} :
    ∀ {run}, Collapsed false run → Collapsed false (scale words rows run) := by
  induction rows with
  | nil => exact id
  | cons row rows ih => exact fun collapsed => ih (scaleCall_collapsed collapsed)

theorem scale_replaced {rows : List (String × ℕ)} :
    ∀ {run}, Replaced words ('.' :: lengthName) run →
      Replaced words ('.' :: lengthName) (scale words rows run) := by
  induction rows with
  | nil => exact id
  | cons row rows ih => exact fun replaced => ih (scaleCall_replaced replaced)

/-- The rows pass over a text as one. -/
theorem foldl_mapOutsideStrings {rows : List (String × ℕ)} {text : List Char} :
    ∀ {f : List Char → List Char}, f [] = [] → (∀ run, Quoteless run → Quoteless (f run)) →
      rows.foldl (fun text row =>
          mapOutsideStrings (scaleCall words row.1.toList row.2 none) [] text)
        (mapOutsideStrings f [] text) =
      mapOutsideStrings (fun run => scale words rows (f run)) [] text := by
  induction rows with
  | nil => exact fun _ _ => rfl
  | cons row rows ih =>
    intro f empty keeps
    have quoteless : Quoteless [] := fun c none => absurd none List.not_mem_nil
    rw [List.foldl_cons, mapOutsideStrings_comp empty keeps quoteless, ih]
    · rfl
    · rw [Function.comp_apply, empty, scaleCall]
    · exact fun run quoteless => scaleCall_quoteless (keeps run quoteless)

/-! ### The canonical text -/

/-- What becomes of an unquoted run. -/
def canonicalRun (words : Words) (run : List Char) : List Char :=
  scale words scaleCalls (sizeForLength words (collapseWhitespace false run))

def unitNames : List (List Char) := scaleCalls.map fun row => row.1.toList

theorem days_toList : "days".toList = ['d', 'a', 'y', 's'] := by decide

theorem hours_toList : "hours".toList = ['h', 'o', 'u', 'r', 's'] := by decide

theorem minutes_toList : "minutes".toList = ['m', 'i', 'n', 'u', 't', 'e', 's'] := by decide

theorem unitNames_eq : unitNames =
    [['d', 'a', 'y', 's'], ['h', 'o', 'u', 'r', 's'], ['m', 'i', 'n', 'u', 't', 'e', 's']] := by
  rw [unitNames, scaleCalls, List.map_cons, List.map_cons, List.map_singleton, days_toList,
    hours_toList, minutes_toList]

theorem unitNames_name : ∀ name ∈ unitNames, Name name := by
  rw [unitNames_eq]
  simp only [List.mem_cons, List.not_mem_nil, or_false]
  rintro name (rfl | rfl | rfl)
  all_goals
    refine ⟨List.cons_ne_nil _ _, ?_⟩
    simp only [List.mem_cons, List.not_mem_nil, or_false]
  · rintro c (rfl | rfl | rfl | rfl) <;> decide
  · rintro c (rfl | rfl | rfl | rfl | rfl) <;> decide
  · rintro c (rfl | rfl | rfl | rfl | rfl | rfl | rfl) <;> decide

theorem mem_unitNames {row : String × ℕ} (mem : row ∈ scaleCalls) : row.1.toList ∈ unitNames :=
  List.mem_map_of_mem mem

theorem rows_scaleCalls : Rows scaleCalls := by
  intro row mem
  refine ⟨unitNames_name _ (mem_unitNames mem), ?_⟩
  simp only [scaleCalls, List.mem_cons, List.not_mem_nil, or_false] at mem
  rcases mem with rfl | rfl | rfl
  · rw [days_toList]
    decide
  · rw [hours_toList]
    decide
  · rw [minutes_toList]
    decide

/-- No name starts as `.size` does, nor as any part of it. -/
theorem size_others : ∀ c ∈ '.' :: sizeName, ∀ name ∈ unitNames, name.head? ≠ some c := by
  rw [unitNames_eq]
  simp only [sizeName, List.mem_cons, List.not_mem_nil, or_false]
  rintro c (rfl | rfl | rfl | rfl | rfl) name (rfl | rfl | rfl) <;> decide

theorem apply_toList (words : Words) (source : String) : (apply words source).toList =
    trimmed (mapOutsideStrings (canonicalRun words) [] source.toList) := by
  have quoteless : Quoteless [] := fun c none => absurd none List.not_mem_nil
  have collapses : ∀ run, Quoteless run → Quoteless (collapseWhitespace false run) :=
    fun run own => collapse_quoteless own false
  have replaces : ∀ run, Quoteless run →
      Quoteless ((sizeForLength words ∘ collapseWhitespace false) run) :=
    fun run own => sizeForLength_quoteless words (collapses run own)
  have empty : (sizeForLength words ∘ collapseWhitespace false) [] = [] := sizeForLength_nil words
  have tokens : replaceWordBoundary words ".length".toList ".size".toList =
      sizeForLength words := rfl
  unfold apply
  dsimp only
  rw [tokens, mapOutsideStrings_comp rfl collapses quoteless,
    foldl_mapOutsideStrings empty replaces, Text.trim, String.toList_ofList,
    String.toList_ofList]
  rfl

/-- Nothing is left to collapse or to replace. -/
def Tidy (words : Words) (run : List Char) : Prop :=
  Collapsed false run ∧ Replaced words ('.' :: lengthName) run

theorem tidy_canonicalRun (run : List Char) : Tidy words (canonicalRun words run) :=
  ⟨scale_collapsed (sizeForLength_collapsed words (collapse_collapse false run)),
    scale_replaced (sizeForLength_replaced words _)⟩

theorem Tidy.front {c : Char} {run : List Char} (tidy : Tidy words (c :: run)) :
    Tidy words run := by
  have whole : Replaced words ('.' :: lengthName) ([c] ++ run) := tidy.2
  exact ⟨tidy.1.tail, whole.behind⟩

theorem Tidy.back {c : Char} {run : List Char} (blank : isWhitespace c)
    (tidy : Tidy words (run ++ [c])) : Tidy words run :=
  ⟨tidy.1.front, tidy.2.front blank⟩

theorem canonicalRun_tidy {run : List Char} (tidy : Tidy words run) :
    canonicalRun words run = scale words scaleCalls run := by
  rw [canonicalRun, tidy.1, sizeForLength, replaceWordBoundary_self tidy.2]

/-- No duration call on a whole number stands outside the string literals of the text. -/
def Settled (words : Words) (text : String) : Prop :=
  ∀ run ∈ runs [] text.toList, ∀ row ∈ scaleCalls, ¬ Foldable words row.1.toList none run

/-- Outside the string literals of the text some duration call opens on another. -/
def Nested (text : String) : Prop := ∃ run ∈ runs [] text.toList, Nests unitNames run

theorem canonicalRun_nil : canonicalRun words [] = [] := by
  rw [canonicalRun, collapseWhitespace, sizeForLength_nil, scale_nil]

theorem scale_quoteless {rows : List (String × ℕ)} :
    ∀ {run}, Quoteless run → Quoteless (scale words rows run) := by
  induction rows with
  | nil => exact id
  | cons row rows ih => exact fun quoteless => ih (scaleCall_quoteless quoteless)

theorem canonicalRun_quoteless (run : List Char) (quoteless : Quoteless run) :
    Quoteless (canonicalRun words run) :=
  scale_quoteless (sizeForLength_quoteless words (collapse_quoteless quoteless false))

theorem runs_apply {source : String} {K : List Char → Prop}
    (front : ∀ {c run}, isWhitespace c → K (c :: run) → K run)
    (back : ∀ {c run}, isWhitespace c → K (run ++ [c]) → K run)
    (holds : ∀ run ∈ runs [] source.toList, K (canonicalRun words run)) :
    ∀ run ∈ runs [] (apply words source).toList, K run := by
  rw [apply_toList]
  apply runs_trimmed front back
  rw [runs_mapOutsideStrings canonicalRun_nil canonicalRun_quoteless
    fun c none => absurd none List.not_mem_nil]
  intro run mem
  obtain ⟨own, mem', rfl⟩ := List.mem_map.mp mem
  exact holds own mem'

theorem tidy_apply (source : String) :
    ∀ run ∈ runs [] (apply words source).toList, Tidy words run := by
  apply runs_apply
  · exact fun _ tidy => tidy.front
  · exact fun blank tidy => tidy.back blank
  · exact fun run _ => tidy_canonicalRun run

theorem not_foldable_apply {source : String} (flat : ¬ Nested source) :
    Settled words (apply words source) := by
  have holds : ∀ run ∈ runs [] (apply words source).toList,
      ∀ row ∈ scaleCalls, ¬ Foldable words row.1.toList none run := by
    apply runs_apply
    · exact fun blank none row mem foldable => none row mem (foldable.after_blank blank)
    · exact fun _ none row mem foldable => none row mem (foldable.append _)
    · intro run mem
      apply not_foldable_scale unitNames_name fun _ => mem_unitNames
      intro nests
      exact flat ⟨run, mem, nests_collapse unitNames_name false
        (nests_sizeForLength unitNames_name size_others nests)⟩
  exact holds

theorem trimmed_apply (source : String) :
    trimmed (apply words source).toList = (apply words source).toList := by
  rw [apply_toList, trimmed_trimmed]

/-- A text that is tidy and trimmed stays as it is when nothing is left to fold, and only then: a
fold makes it shorter. -/
theorem apply_eq_self_iff {text : String} (tidy : ∀ run ∈ runs [] text.toList, Tidy words run)
    (trim : trimmed text.toList = text.toList) : apply words text = text ↔ Settled words text := by
  constructor
  · intro same
    by_contra unsettled
    unfold Settled at unsettled
    push Not at unsettled
    obtain ⟨run, mem, row, own, foldable⟩ := unsettled
    have shorter : ∀ run ∈ runs [] text.toList, (canonicalRun words run).length ≤ run.length := by
      intro run mem
      rw [canonicalRun_tidy (tidy run mem)]
      exact scale_length rows_scaleCalls run
    have strict : ∃ run ∈ runs [] text.toList, (canonicalRun words run).length < run.length := by
      refine ⟨run, mem, ?_⟩
      rw [canonicalRun_tidy (tidy run mem)]
      exact scale_lt rows_scaleCalls ⟨row, own, foldable⟩
    have less := mapOutsideStrings_lt shorter strict
    have trims := trimmed_length (mapOutsideStrings (canonicalRun words) [] text.toList)
    rw [← apply_toList, same] at trims
    rw [List.length_nil] at less
    omega
  · intro settled
    have stays : mapOutsideStrings (canonicalRun words) [] text.toList = [] ++ text.toList := by
      apply mapOutsideStrings_self
      intro run mem
      rw [canonicalRun_tidy (tidy run mem)]
      exact scale_self (settled run mem)
    apply String.toList_injective
    rw [apply_toList, stays, List.nil_append, trim]

/-- Rewriting a canonical text leaves it as it is exactly when no duration call on a whole number
is left in it, and none is left of a text whose duration calls do not open on one another. -/
theorem apply_settles (words : Words) (source : String) :
    (apply words (apply words source) = apply words source ↔
      Settled words (apply words source)) ∧
    (¬ Nested source → apply words (apply words source) = apply words source) := by
  have tidy : ∀ run ∈ runs [] (apply words source).toList, Tidy words run := tidy_apply source
  have settles := apply_eq_self_iff tidy (trimmed_apply source)
  exact ⟨settles, fun flat => settles.mpr (not_foldable_apply flat)⟩

/-- The words of ASCII. -/
def asciiWords : Words where
  alphanumeric := Char.isAlphanum
  digit digit := by rw [Char.isAlphanum, digit, Bool.or_true]
  blank {c} blank := by
    simp only [isWhitespace, Bool.or_eq_true, Bool.and_eq_true, decide_eq_true_eq, beq_iff_eq]
      at blank
    simp only [Char.isAlphanum, Char.isAlpha, Char.isUpper, Char.isLower, Char.isDigit, ge_iff_le,
      Bool.or_eq_false_iff, Bool.and_eq_false_iff, decide_eq_false_iff_not]
    simp only [UInt32.le_iff_toNat_le]
    have code : c.val.toNat = c.toNat := rfl
    have upper : 'A'.val.toNat = 65 ∧ 'Z'.val.toNat = 90 := ⟨rfl, rfl⟩
    have lower : 'a'.val.toNat = 97 ∧ 'z'.val.toNat = 122 := ⟨rfl, rfl⟩
    have digits : '0'.val.toNat = 48 ∧ '9'.val.toNat = 57 := ⟨rfl, rfl⟩
    rw [code, upper.1, upper.2, lower.1, lower.2, digits.1, digits.2]
    omega

/-- A call that opens on a call of a later row is left for the next pass. -/
theorem nested_call_rewritten_again :
    ¬ ∀ (words : Words) (source : String),
      apply words (apply words source) = apply words source := by
  intro idempotent
  have once : apply asciiWords "days(hours(1))" = "days(3600)" := by
    with_unfolding_all rfl
  have twice : apply asciiWords "days(3600)" = "311040000" := by
    with_unfolding_all rfl
  have same := idempotent asciiWords "days(hours(1))"
  rw [once, twice] at same
  exact absurd same (by decide)

/-- A call that opens on another is as long as two names and their parentheses. -/
theorem nests_length {run : List Char} (nests : Nests unitNames run) : 10 ≤ run.length := by
  obtain ⟨front, after, rfl, outer, mem, lead, inner, mem', rest, -, rfl⟩ := nests
  have long : ∀ name ∈ unitNames, 4 ≤ name.length := by
    rw [unitNames_eq]
    decide
  have outer_long := long outer mem
  have inner_long := long inner mem'
  simp only [List.length_append, List.length_cons]
  omega

theorem single_call_settles :
    ¬ Nested "days(1)" ∧
      apply asciiWords (apply asciiWords "days(1)") = apply asciiWords "days(1)" := by
  have alone : runs [] "days(1)".toList = ["days(1)".toList] := by with_unfolding_all rfl
  have flat : ¬ Nested "days(1)" := by
    rintro ⟨run, mem, nests⟩
    rw [alone, List.mem_singleton] at mem
    have long := nests_length nests
    rw [mem] at long
    exact absurd long (by decide)
  exact ⟨flat, (apply_settles asciiWords "days(1)").2 flat⟩

end Hecks.Parser.Canonical
