import Mathlib
import Hecks.Parser.PatternSubset

/-! Where the two validators of patterns agree: they read a pattern in the same steps, and differ
only inside bracket classes and at bounded quantifiers. -/

namespace Hecks.Bluebook.PatternSubset

open Build.PatternSubset (refusalAt width)

variable {s : Scan}

/-! ### The same places -/

/-- The position behind the construct at this one, whether it is refused or not. -/
def Scan.next (scan : Scan) : Scan :=
  { (readStep scan).2 with
    chars := scan.chars, index := scan.index + width scan.chars scan.index }

/-- Every place the validators read, to the end of the pattern. -/
def places (scan : Scan) : List Scan :=
  if scan.done then [] else scan :: places scan.next
termination_by scan.chars.length - scan.index
decreasing_by
  rename_i going
  have := Build.PatternSubset.width_pos scan.chars scan.index
  simp only [Scan.done, decide_eq_true_eq, not_le] at going
  simp only [Scan.next]
  omega

theorem next_of_readStep {next : Scan} (h : readStep s = (none, next)) : next = s.next := by
  obtain ⟨chars, index⟩ := readStep_next h
  rw [Scan.next, ← index, h, ← chars]

theorem validateFrom_eq (scan : Scan) :
    validateFrom scan = ((places scan).findSome? fun s => (readStep s).1).map refuse := by
  induction scan using places.induct with
  | case1 scan done =>
    rw [validateFrom, if_pos done, places, if_pos done]
    rfl
  | case2 scan going ih =>
    rw [validateFrom, if_neg going, places, if_neg going, List.findSome?_cons]
    split
    next key _ step =>
      rw [step]
      rfl
    next next step =>
      rw [step, next_of_readStep step]
      exact ih

theorem build_validateFrom_eq (scan : Scan) :
    Build.PatternSubset.validateFrom scan.chars scan.index =
      ((places scan).findSome? fun s => refusalAt s.chars s.index).map
        Build.PatternSubset.refuse := by
  induction scan using places.induct with
  | case1 scan done =>
    have ended : ¬ scan.index < scan.chars.length := by simpa [Scan.done] using done
    rw [Build.PatternSubset.validateFrom, if_neg ended, places, if_pos done]
    rfl
  | case2 scan going ih =>
    have inside : scan.index < scan.chars.length := by simpa [Scan.done] using going
    rw [Build.PatternSubset.validateFrom, if_pos inside, places, if_neg going, List.findSome?_cons]
    cases refusalAt scan.chars scan.index with
    | some key => rfl
    | none => exact ih

/-! ### What each refuses at a place -/

/-- What both refuse anywhere: an escape, or a POSIX class. -/
def common (s : Scan) : Option PatternKey :=
  if s.char = some '\\' then escapeRefusal s.peek
  else if posixClassAt s.chars s.index then some .posixClass
  else none

/-- A quantifier character followed by `+`. -/
def doubledAt (s : Scan) : Bool :=
  s.char.any (fun c => ['*', '+', '?'].contains c) && s.peek = some '+'

/-- A bounded quantifier followed by `+`. -/
def boundedAt (s : Scan) : Bool :=
  s.char = some '\x7b' &&
    (boundedQuantifierLength s.chars s.index).any fun len => s.chars[s.index + len]? = some '+'

/-- A group that is refused, or a doubled quantifier. -/
def grouping (s : Scan) : Option PatternKey :=
  (groupRefusal s.chars s.index).or (if doubledAt s then some .possessive else none)

theorem escape_digit (c : Char) :
    (c.isDigit && decide (c ≠ '0')) = (decide ('1' ≤ c) && decide (c ≤ '9')) := by
  rw [Bool.eq_iff_iff]
  simp only [Char.isDigit, Bool.and_eq_true, decide_eq_true_eq, ge_iff_le, Char.le_def,
    UInt32.le_iff_toNat_le, ne_eq, ← Char.toNat_inj]
  show (48 ≤ c.toNat ∧ c.toNat ≤ 57) ∧ c.toNat ≠ 48 ↔ 49 ≤ c.toNat ∧ c.toNat ≤ 57
  omega

theorem doubledAt_iff : doubledAt s = true ↔
    (s.chars[s.index]?).any (fun c => ['*', '+', '?'].contains c) = true ∧
      s.chars[s.index + 1]? = some '+' := by
  rw [doubledAt, Bool.and_eq_true, decide_eq_true_eq]
  rfl

theorem groupRefusal_none (h : s.char ≠ some '(') : groupRefusal s.chars s.index = none := by
  rw [groupRefusal, if_pos (.inl h)]

theorem posixClassAt_false (h : s.char ≠ some '[') : posixClassAt s.chars s.index = false := by
  rw [posixClassAt, if_pos]
  exact fun both => h both.1

theorem refusalAt_eq (s : Scan) : refusalAt s.chars s.index = (common s).or (grouping s) := by
  by_cases slash : s.char = some '\\'
  · have plain : grouping s = none := by
      rw [grouping, groupRefusal_none (by rw [slash]; decide)]
      simp [doubledAt, slash]
    rw [plain, Option.or_none, common, if_pos slash]
    have here : s.chars[s.index]? = some '\\' := slash
    simp only [refusalAt, if_pos here, escapeRefusal, Scan.peek, escape_digit]
    rfl
  · have here : ¬ s.chars[s.index]? = some '\\' := slash
    have same : Build.PatternSubset.posixClassAt s.chars s.index =
        posixClassAt s.chars s.index := by
      simp only [Build.PatternSubset.posixClassAt, posixClassAt, not_and_or, ne_eq]
    rw [common, if_neg slash]
    by_cases bracket : s.char = some '['
    · have plain : grouping s = none := by
        rw [grouping, groupRefusal_none (by rw [bracket]; decide)]
        simp [doubledAt, bracket]
      have front : s.chars[s.index]? = some '[' := bracket
      rw [plain, Option.or_none, ← same]
      simp [refusalAt, front]
    · rw [posixClassAt_false bracket] at same ⊢
      simp only [refusalAt, if_neg here, same, Bool.false_eq_true, if_false, Option.none_or,
        grouping, groupRefusal, doubledAt_iff]
      by_cases group : s.chars[s.index]? = some '(' ∧ s.chars[s.index + 1]? = some '?'
      · obtain ⟨paren, mark⟩ := group
        simp only [paren, mark, true_and, not_true_eq_false, or_self, if_false, ne_eq]
        split
        · rfl
        · split
          · rfl
          · split
            · rfl
            · simp
      · have open_ : ∀ p : Prop, ¬ (s.chars[s.index]? = some '(' ∧ s.chars[s.index + 1]? = some '?' ∧ p) :=
          fun p h => group ⟨h.1, h.2.1⟩
        rw [if_neg (open_ _), if_neg (open_ _), if_neg (open_ _), if_pos (not_and_or.mp group),
          Option.none_or]

theorem possessiveAt_eq (s : Scan) : possessiveAt s.chars s.index = (doubledAt s || boundedAt s) := by
  by_cases doubled : doubledAt s = true
  · rw [doubled, Bool.true_or, possessiveAt, if_pos (doubledAt_iff.mp doubled)]
  · rw [Bool.not_eq_true] at doubled
    rw [doubled, Bool.false_or, possessiveAt, if_neg]
    · unfold boundedAt Scan.char
      by_cases brace : s.chars[s.index]? = some '\x7b'
      · simp only [brace, ne_eq, not_true_eq_false, if_false, decide_true, Bool.true_and]
      · simp only [brace, ne_eq, not_false_eq_true, if_true, decide_false, Bool.false_and]
    · rw [← doubledAt_iff, doubled]
      exact Bool.false_ne_true

theorem readStep_eq (s : Scan) : (readStep s).1 = (common s).or
    (if s.inClass then none else (grouping s).or (if boundedAt s then some .possessive else none)) := by
  by_cases slash : s.char = some '\\'
  · have plain : grouping s = none := by
      rw [grouping, groupRefusal_none (by rw [slash]; decide)]
      simp [doubledAt, slash]
    have unbound : boundedAt s = false := by simp [boundedAt, slash]
    rw [plain, unbound, common, if_pos slash, readStep, if_pos slash]
    unfold escapeStep
    cases escapeRefusal s.peek <;> simp
  · rw [common, if_neg slash, readStep, if_neg slash]
    by_cases inClass : s.inClass = true
    · rw [if_pos inClass, if_pos inClass, Option.or_none, classStep]
      split
      next closing =>
        have front : s.char = some ']' := by
          simp only [Scan.closingBracket, Bool.and_eq_true, decide_eq_true_eq] at closing
          exact closing.1
        rw [posixClassAt_false (by rw [front]; decide)]
        rfl
      next => rfl
    · rw [if_neg inClass, if_neg inClass]
      by_cases bracket : s.char = some '['
      · have plain : grouping s = none := by
          rw [grouping, groupRefusal_none (by rw [bracket]; decide)]
          simp [doubledAt, bracket]
        have unbound : boundedAt s = false := by simp [boundedAt, bracket]
        rw [if_pos bracket, openClassStep, plain, unbound]
        split <;> rfl
      · rw [if_neg bracket, posixClassAt_false bracket, plainStep, possessiveAt_eq]
        unfold grouping
        cases groupRefusal s.chars s.index with
        | some key => rfl
        | none => cases doubledAt s <;> cases boundedAt s <;> rfl

/-! ### Where they differ -/

/-- A group or a doubled quantifier inside a class: the host's parser alone refuses it. -/
def parserOnly (s : Scan) : Option PatternKey := if s.inClass then grouping s else none

/-- A bounded quantifier outside a class followed by `+`: the authoring language alone refuses
it. -/
def bluebookOnly (s : Scan) : Option PatternKey :=
  if !s.inClass && boundedAt s then some .possessive else none

/-- Where something is refused that both know, there is neither a group nor a quantifier. -/
theorem alone_of_common (h : common s ≠ none) : grouping s = none ∧ boundedAt s = false := by
  have front : s.char = some '\\' ∨ s.char = some '[' := by
    by_contra other
    rw [not_or] at other
    apply h
    rw [common, if_neg other.1, posixClassAt_false other.2]
    rfl
  unfold grouping doubledAt boundedAt
  rcases front with front | front
  · rw [groupRefusal_none (by rw [front]; decide), front]
    exact ⟨rfl, rfl⟩
  · rw [groupRefusal_none (by rw [front]; decide), front]
    exact ⟨rfl, rfl⟩

/-- A bounded quantifier opens no group and is no quantifier character. -/
theorem grouping_of_bounded (h : boundedAt s = true) : grouping s = none := by
  simp only [boundedAt, Bool.and_eq_true, decide_eq_true_eq] at h
  unfold grouping doubledAt
  rw [groupRefusal_none (by rw [h.1]; decide), h.1]
  rfl

theorem compatible (s : Scan) : refusalAt s.chars s.index = none ∨ (readStep s).1 = none ∨
    refusalAt s.chars s.index = (readStep s).1 := by
  rw [refusalAt_eq, readStep_eq]
  cases both : common s with
  | some key => exact .inr (.inr rfl)
  | none =>
    by_cases inClass : s.inClass = true
    · right; left
      rw [if_pos inClass]
      rfl
    · rw [if_neg inClass]
      cases group : grouping s with
      | some key => exact .inr (.inr rfl)
      | none => exact .inl rfl

theorem parserOnly_iff (key : PatternKey) :
    refusalAt s.chars s.index = some key ∧ (readStep s).1 = none ↔ parserOnly s = some key := by
  rw [refusalAt_eq, readStep_eq, parserOnly]
  cases both : common s with
  | some other =>
    rw [(alone_of_common (by rw [both]; simp)).1]
    simp
  | none =>
    by_cases inClass : s.inClass = true
    · simp [inClass]
    · cases group : grouping s <;> simp [inClass]

theorem bluebookOnly_iff (key : PatternKey) :
    (readStep s).1 = some key ∧ refusalAt s.chars s.index = none ↔ bluebookOnly s = some key := by
  rw [refusalAt_eq, readStep_eq, bluebookOnly]
  cases both : common s with
  | some other =>
    rw [(alone_of_common (by rw [both]; simp)).2]
    simp
  | none =>
    by_cases inClass : s.inClass = true
    · simp [inClass]
    · cases bound : boundedAt s with
      | true => simp [inClass, grouping_of_bounded bound]
      | false => cases group : grouping s <;> simp [inClass]

/-- What both name, they name alike. -/
theorem construct_eq (key : PatternKey) :
    (Build.PatternSubset.refuse key).construct = (refuse key).construct := by
  cases key <;> rfl

theorem constructs_injective : Function.Injective constructs := by
  intro a b
  cases a <;> cases b <;> simp [constructs]

/-- The first place that one validator alone refuses, with nothing refused before it: the other's
next refusal names the same construct. -/
def Agreeing (pattern : List Char) : Prop :=
  ∀ before place after, places (.new pattern) = before ++ place :: after →
    (∀ p ∈ before, refusalAt p.chars p.index = none ∧ (readStep p).1 = none) →
      (∀ key, parserOnly place = some key → Search.First (fun p => (readStep p).1) after key) ∧
        (∀ key, bluebookOnly place = some key →
          Search.First (fun p => refusalAt p.chars p.index) after key)

/-- The two validators admit the same patterns, and name the same construct in what they refuse,
exactly where no first construct is refused by one of them alone, or the other refuses the same
kind of construct next. -/
theorem validators_agree (pattern : List Char) :
    (Build.PatternSubset.validate pattern).map Rejection.construct =
        (validate pattern).map Rejection.construct ↔ Agreeing pattern := by
  have host := build_validateFrom_eq (.new pattern)
  have author := validateFrom_eq (.new pattern)
  have named : ∀ keys : Option PatternKey,
      (keys.map Build.PatternSubset.refuse).map Rejection.construct = keys.map constructs := by
    intro keys
    cases keys with
    | none => rfl
    | some key => exact congrArg some (construct_eq key)
  have named' : ∀ keys : Option PatternKey,
      (keys.map refuse).map Rejection.construct = keys.map constructs := by
    intro keys
    cases keys <;> rfl
  unfold Build.PatternSubset.validate validate Agreeing
  rw [show Build.PatternSubset.validateFrom pattern 0 = _ from host, author, named, named',
    (Option.map_injective constructs_injective).eq_iff, Search.findSome?_eq_iff compatible]
  simp only [← parserOnly_iff, ← bluebookOnly_iff, and_imp]

/-- A possessive bounded quantifier is admitted by the host's parser alone. -/
theorem possessive_bound_admitted :
    ¬ ((Build.PatternSubset.validate "a\x7b2\x7d+".toList).map Rejection.construct =
      (validate "a\x7b2\x7d+".toList).map Rejection.construct) := by
  decide +kernel

end Hecks.Bluebook.PatternSubset
