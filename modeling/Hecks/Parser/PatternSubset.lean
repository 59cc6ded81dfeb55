import Mathlib
import Hecks.Lib.Search

/-! Which regexes a bluebook `pattern:` may say, as the host's parser and the authoring language
decide it. A pattern is read from left to right, a backslash with what it escapes in one step. -/

namespace Hecks

/-- The constructs that are refused. -/
inductive PatternKey where
  | backreference
  | namedBackreference
  | perlClass
  | posixClass
  | lookahead
  | lookbehind
  | atomicGroup
  | possessive
  deriving DecidableEq

structure Rejection where
  construct : String
  reason : String

/-- The first place from `cursor` on whose character is none of these. -/
def skipWhile (p : Char → Bool) (chars : List Char) (cursor : Nat) : Nat :=
  cursor + ((chars.drop cursor).takeWhile p).length

namespace Build.PatternSubset

/-! ### The host's parser -/

/-- What each key of `REASONS` names, and why it is refused. -/
def reasons : PatternKey → String × String
  | .backreference => ("backreference",
      "backreferences cannot be matched in linear time and portable engines refuse them ; a " ++
      "declared pattern may not depend on one")
  | .namedBackreference => ("named backreference",
      "a named backreference is still a backreference — it cannot be matched in linear time ; a " ++
      "declared pattern may not depend on one")
  | .perlClass => ("perl character class",
      "engines read it in OPPOSITE directions : ASCII in some and Unicode in others, so an " ++
      "Arabic-Indic digit satisfies one and not the other. Spell the range you mean — [0-9], " ++
      "[A-Za-z0-9_], [ \\t] — which every engine reads the same way")
  | .posixClass => ("posix bracket class",
      "[:digit:] and friends flip between ASCII and Unicode across engines — the mirror of the " ++
      "perl classes, and wrong in the same way. Spell the range you mean")
  | .lookahead => ("lookahead",
      "lookahead cannot be matched in linear time and portable engines refuse it ; a declared " ++
      "pattern may not depend on it")
  | .lookbehind => ("lookbehind",
      "lookbehind cannot be matched in linear time and portable engines refuse it ; a declared " ++
      "pattern may not depend on it")
  | .atomicGroup => ("atomic group",
      "an atomic group is a backtracking-engine control knob — linear-time engines reject " ++
      "`(?>` as a syntax error")
  | .possessive => ("possessive quantifier",
      "a possessive quantifier is a backtracking-engine control knob — linear-time engines " ++
      "reject it as a syntax error")

def refuse (key : PatternKey) : Rejection := ⟨(reasons key).1, (reasons key).2⟩

def posixClassAt (chars : List Char) (index : Nat) : Bool :=
  if chars[index]? ≠ some '[' ∨ chars[index + 1]? ≠ some ':' then false
  else
    let cursor := skipWhile Char.isAlpha chars (index + 2)
    chars[cursor]? = some ':' && chars[cursor + 1]? = some ']'

/-- What the loop refuses at one place. -/
def refusalAt (chars : List Char) (index : Nat) : Option PatternKey :=
  let next := chars[index + 1]?
  let third := chars[index + 2]?
  let fourth := chars[index + 3]?
  if chars[index]? = some '\\' then
    if next.any fun c => c.isDigit && c ≠ '0' then some .backreference
    else if next.any fun c => ['k', 'g'].contains c then some .namedBackreference
    else if next.any fun c => ['d', 'D', 'w', 'W', 's', 'S'].contains c then some .perlClass
    else none
  else if chars[index]? = some '(' ∧ next = some '?' ∧ third.any fun c => ['=', '!'].contains c then
    some .lookahead
  else if chars[index]? = some '(' ∧ next = some '?' ∧ third = some '<' ∧
      fourth.any fun c => ['=', '!'].contains c then
    some .lookbehind
  else if chars[index]? = some '(' ∧ next = some '?' ∧ third = some '>' then some .atomicGroup
  else if posixClassAt chars index then some .posixClass
  else if (chars[index]?).any (fun c => ['*', '+', '?'].contains c) ∧ next = some '+' then
    some .possessive
  else none

/-- How many characters one step of the loop reads. -/
def width (chars : List Char) (index : Nat) : Nat :=
  if chars[index]? = some '\\' ∧ (chars[index + 1]?).isSome then 2 else 1

theorem width_pos (chars : List Char) (index : Nat) : 0 < width chars index := by
  unfold width
  split <;> omega

def validateFrom (chars : List Char) (index : Nat) : Option Rejection :=
  if index < chars.length then
    match refusalAt chars index with
    | some key => some (refuse key)
    | none => validateFrom chars (index + width chars index)
  else none
termination_by chars.length - index
decreasing_by
  have := width_pos chars index
  omega

/-- `None` when the pattern is in the portable subset. -/
def validate (pattern : List Char) : Option Rejection := validateFrom pattern 0

end Build.PatternSubset

namespace Bluebook.PatternSubset

/-! ### The authoring language -/

def reasons : PatternKey → String
  | .backreference =>
      "backreferences cannot be matched in linear time and portable " ++
      "engines refuse them ; a declared pattern may not depend on one"
  | .namedBackreference =>
      "a named backreference is still a backreference — it cannot be " ++
      "matched in linear time ; a declared pattern may not depend on one"
  | .perlClass =>
      "engines read it in OPPOSITE directions : ASCII in some and " ++
      "Unicode in others, so an Arabic-Indic digit satisfies one and not " ++
      "the other. Spell the range you mean — [0-9], [A-Za-z0-9_], [ \t] " ++
      "— which every engine reads the same way"
  | .posixClass =>
      "[:digit:] and friends flip between ASCII and Unicode across " ++
      "engines — the mirror of the perl classes, and wrong in the same " ++
      "way. Spell the range you mean"
  | .lookahead =>
      "lookahead cannot be matched in linear time and portable engines " ++
      "refuse it ; a declared pattern may not depend on it"
  | .lookbehind =>
      "lookbehind cannot be matched in linear time and portable engines " ++
      "refuse it ; a declared pattern may not depend on it"
  | .atomicGroup =>
      "an atomic group is a backtracking-engine control knob — " ++
      "linear-time engines reject `(?>` as a syntax error"
  | .possessive =>
      "a possessive quantifier is a backtracking-engine control knob — " ++
      "linear-time engines reject it as a syntax error"

def constructs : PatternKey → String
  | .backreference => "backreference"
  | .namedBackreference => "named backreference"
  | .perlClass => "perl character class"
  | .posixClass => "posix bracket class"
  | .lookahead => "lookahead"
  | .lookbehind => "lookbehind"
  | .atomicGroup => "atomic group"
  | .possessive => "possessive quantifier"

def refuse (key : PatternKey) : Rejection := ⟨constructs key, reasons key⟩

/-- A reading position in a pattern, and whether it is inside a `[...]` class. -/
structure Scan where
  chars : List Char
  index : Nat
  inClass : Bool
  classStart : Option Nat

namespace Scan

def new (chars : List Char) : Scan := ⟨chars, 0, false, none⟩

def done (scan : Scan) : Bool := scan.chars.length ≤ scan.index

def char (scan : Scan) : Option Char := scan.chars[scan.index]?

def peek (scan : Scan) : Option Char := scan.chars[scan.index + 1]?

/-- Whether the current `]` closes the open class. -/
def closingBracket (scan : Scan) : Bool :=
  scan.char = some ']' && scan.classStart ≠ some scan.index

def take (scan : Scan) (count : Nat) : Scan := { scan with index := scan.index + count }

/-- Opens a class at the current `[`. -/
def enterClass (scan : Scan) : Scan :=
  { scan with
    inClass := true
    classStart := some (if scan.chars[scan.index + 1]? = some '^' then scan.index + 2
      else scan.index + 1) }

def leaveClass (scan : Scan) : Scan := { scan with inClass := false }

end Scan

def escapeRefusal (nxt : Option Char) : Option PatternKey :=
  if nxt.any fun c => '1' ≤ c && c ≤ '9' then some .backreference
  else if nxt.any fun c => ['k', 'g'].contains c then some .namedBackreference
  else if nxt.any fun c => ['d', 'D', 'w', 'W', 's', 'S'].contains c then some .perlClass
  else none

def groupRefusal (chars : List Char) (index : Nat) : Option PatternKey :=
  if chars[index]? ≠ some '(' ∨ chars[index + 1]? ≠ some '?' then none
  else if (chars[index + 2]?).any fun c => ['=', '!'].contains c then some .lookahead
  else if chars[index + 2]? = some '<' ∧ (chars[index + 3]?).any fun c => ['=', '!'].contains c then
    some .lookbehind
  else if chars[index + 2]? = some '>' then some .atomicGroup
  else none

def posixClassAt (chars : List Char) (index : Nat) : Bool :=
  if ¬ (chars[index]? = some '[' ∧ chars[index + 1]? = some ':') then false
  else
    let cursor := skipWhile Char.isAlpha chars (index + 2)
    chars[cursor]? = some ':' && chars[cursor + 1]? = some ']'

def skipDigits (chars : List Char) (cursor : Nat) : Nat := skipWhile Char.isDigit chars cursor

/-- Length of a `{n}`, `{n,}` or `{n,m}` bound, if there is one. -/
def boundedQuantifierLength (chars : List Char) (index : Nat) : Option Nat :=
  let number := skipDigits chars (index + 1)
  if number = index + 1 then none
  else
    let cursor := if chars[number]? = some ',' then skipDigits chars (number + 1) else number
    if chars[cursor]? ≠ some '\x7d' then none else some (cursor - index + 1)

/-- A possessive quantifier is `*+`, `++`, `?+` or a bound followed by `+`. -/
def possessiveAt (chars : List Char) (index : Nat) : Bool :=
  if (chars[index]?).any (fun c => ['*', '+', '?'].contains c) ∧ chars[index + 1]? = some '+' then
    true
  else if chars[index]? ≠ some '\x7b' then false
  else (boundedQuantifierLength chars index).any fun len => chars[index + len]? = some '+'

def escapeStep (scan : Scan) : Option PatternKey × Scan :=
  match escapeRefusal scan.peek with
  | some key => (some key, scan)
  | none => (none, scan.take (if scan.peek.isSome then 2 else 1))

def classStep (scan : Scan) : Option PatternKey × Scan :=
  if scan.closingBracket then (none, scan.leaveClass.take 1)
  else (if posixClassAt scan.chars scan.index then some .posixClass else none, scan.take 1)

def openClassStep (scan : Scan) : Option PatternKey × Scan :=
  if posixClassAt scan.chars scan.index then (some .posixClass, scan)
  else (none, scan.enterClass.take 1)

def plainStep (scan : Scan) : Option PatternKey × Scan :=
  match groupRefusal scan.chars scan.index with
  | some key => (some key, scan.take 1)
  | none =>
      (if possessiveAt scan.chars scan.index then some .possessive else none, scan.take 1)

/-- Reads one construct: what it is refused as, and the position behind it. -/
def readStep (scan : Scan) : Option PatternKey × Scan :=
  if scan.char = some '\\' then escapeStep scan
  else if scan.inClass then classStep scan
  else if scan.char = some '[' then openClassStep scan
  else plainStep scan

theorem readStep_next {scan next : Scan} (h : readStep scan = (none, next)) :
    next.chars = scan.chars ∧
      next.index = scan.index + Build.PatternSubset.width scan.chars scan.index := by
  unfold readStep at h
  split at h
  next slash =>
    unfold escapeStep at h
    split at h
    next => cases h
    next =>
      cases h
      refine ⟨rfl, ?_⟩
      rw [Scan.char] at slash
      simp [Scan.take, Scan.peek, Build.PatternSubset.width, slash]
  next plain =>
    have one : Build.PatternSubset.width scan.chars scan.index = 1 := by
      rw [Scan.char] at plain
      simp [Build.PatternSubset.width, plain]
    rw [one]
    split at h
    next =>
      unfold classStep at h
      split at h
      next =>
        cases h
        exact ⟨rfl, rfl⟩
      next =>
        obtain ⟨-, rfl⟩ := Prod.mk.inj h
        exact ⟨rfl, rfl⟩
    next =>
      split at h
      next =>
        unfold openClassStep at h
        split at h
        next => cases h
        next =>
          cases h
          exact ⟨rfl, rfl⟩
      next =>
        unfold plainStep at h
        split at h
        next => cases h
        next =>
          obtain ⟨-, rfl⟩ := Prod.mk.inj h
          exact ⟨rfl, rfl⟩

def validateFrom (scan : Scan) : Option Rejection :=
  if scan.done then none
  else
    match h : readStep scan with
    | (some key, _) => some (refuse key)
    | (none, next) => validateFrom next
termination_by scan.chars.length - scan.index
decreasing_by
  obtain ⟨same, index⟩ := readStep_next h
  have := Build.PatternSubset.width_pos scan.chars scan.index
  rename_i going
  simp only [Scan.done, decide_eq_true_eq, not_le] at going
  rw [same, index]
  omega

/-- Nothing when the pattern is admitted. -/
def validate (pattern : List Char) : Option Rejection := validateFrom (.new pattern)

end Bluebook.PatternSubset

end Hecks
