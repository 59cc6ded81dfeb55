import Hecks.Parser.Canonical
import Hecks.Sentence.Lines

/-! The lexer: strips comments and blank lines, joins continued lines, and applies the shape gate to
each. A text is its characters; an offset in a message is in bytes. -/
namespace Hecks.Parser.Lex

open Canonical (trimmed)
open Sentence (Diagnostic byteLength)
open Text (isWhitespace)

/-- `char::is_alphanumeric`; `letters` answers outside ASCII. -/
def isAlphanumeric (letters : Char → Bool) (ch : Char) : Bool :=
  if ch.toNat < 128 then ch.isAlphanum else letters ch

/-- What a character run is quoted by. -/
inductive Quoted where
  | double
  | single
  /-- A regular expression literal. -/
  | regex
  deriving DecidableEq

def Quoted.closer : Quoted → Char
  | .double => '"'
  | .single => '\''
  | .regex => '/'

/-- Whether the scan is inside a string or a regexp literal; `last` is the last character seen
outside a literal that was not a space. -/
structure Quotes where
  mode : Option Quoted := none
  escaping : Bool := false
  last : Option Char := none
  deriving DecidableEq

namespace Quotes

/-- Whether what comes next is an operand, so a `/` opens a regexp and is not a division. -/
def expectsOperand (quotes : Quotes) : Bool :=
  quotes.last.all fun prev => "(,\x7b[=!|&~:?<>+-*%^;".toList.contains prev

/-- A `'` is an apostrophe. -/
def followsWord (letters : Char → Bool) (quotes : Quotes) : Bool :=
  quotes.last.any fun prev => isAlphanumeric letters prev || prev = '_'

/-- Feeds one character; true when it is inside a literal or is one of its delimiters. -/
def inside (letters : Char → Bool) (quotes : Quotes) (ch : Char) : Bool × Quotes :=
  match quotes.mode with
  | some mode =>
      if quotes.escaping then (true, { quotes with escaping := false })
      else if ch = '\\' then (true, { quotes with escaping := true })
      else if ch = mode.closer then (true, { quotes with mode := none, last := some ch })
      else (true, quotes)
  | none =>
      if ch = '"' then (true, { quotes with mode := some .double })
      else if ch = '\'' ∧ !quotes.followsWord letters then
        (true, { quotes with mode := some .single })
      else if ch = '/' ∧ quotes.expectsOperand then (true, { quotes with mode := some .regex })
      else (false, if isWhitespace ch then quotes else { quotes with last := some ch })

/-- The scan behind a text. -/
def after (letters : Char → Bool) (quotes : Quotes) (text : List Char) : Quotes :=
  text.foldl (fun quotes ch => (quotes.inside letters ch).2) quotes

/-- The characters outside every literal with their places, the first of them at `idx`. -/
def bare (letters : Char → Bool) (quotes : Quotes) (idx : Nat) : List Char → List (Nat × Char)
  | [] => []
  | ch :: cs =>
      let (inside, quotes) := quotes.inside letters ch
      if inside then bare letters quotes (idx + 1) cs
      else (idx, ch) :: bare letters quotes (idx + 1) cs

/-- What stands outside every literal. -/
def bareText (letters : Char → Bool) (quotes : Quotes) (text : List Char) : List Char :=
  (quotes.bare letters 0 text).map (·.2)

/-- What the characters outside every literal add up to. -/
def weigh (letters : Char → Bool) (quotes : Quotes) (value : Char → Int) (text : List Char) : Int :=
  ((quotes.bare letters 0 text).map fun (_, ch) => value ch).sum

/-- The scans have the same ahead of them. -/
structure Alike (letters : Char → Bool) (quotes quotes' : Quotes) : Prop where
  mode : quotes.mode = quotes'.mode
  escaping : quotes.escaping = quotes'.escaping
  operand : quotes.expectsOperand = quotes'.expectsOperand
  word : quotes.followsWord letters = quotes'.followsWord letters

section

variable {letters : Char → Bool} {quotes : Quotes} {ch : Char}

theorem after_append (xs ys : List Char) :
    quotes.after letters (xs ++ ys) = (quotes.after letters xs).after letters ys :=
  List.foldl_append

theorem bare_cons (idx : Nat) (ch : Char) (cs : List Char) :
    quotes.bare letters idx (ch :: cs) =
      (if (quotes.inside letters ch).1 then [] else [(idx, ch)]) ++
        (quotes.inside letters ch).2.bare letters (idx + 1) cs := by
  rw [bare]
  generalize quotes.inside letters ch = fed
  obtain ⟨inside, next⟩ := fed
  cases inside <;> rfl

theorem bare_append (idx : Nat) (xs ys : List Char) :
    quotes.bare letters idx (xs ++ ys) =
      quotes.bare letters idx xs ++
        (quotes.after letters xs).bare letters (idx + xs.length) ys := by
  induction xs generalizing quotes idx with
  | nil => rfl
  | cons ch xs ih =>
    rw [List.cons_append, bare_cons, bare_cons, ih, List.length_cons, Nat.add_comm xs.length,
      Nat.add_assoc, List.append_assoc]
    rfl

/-- What opens no literal stands in one exactly where one is open. -/
theorem inside_fst (double : ch ≠ '"') (single : ch ≠ '\'') (slash : ch ≠ '/') :
    (quotes.inside letters ch).1 = quotes.mode.isSome := by
  unfold inside
  cases quotes.mode with
  | none => simp [double, single, slash]
  | some mode =>
    dsimp only
    split_ifs <;> rfl

theorem inside_blank (outside : quotes.mode = none) (blank : isWhitespace ch = true) :
    quotes.inside letters ch = (false, quotes) := by
  have double : ch ≠ '"' := by rintro rfl; cases blank
  have single : ch ≠ '\'' := by rintro rfl; cases blank
  have slash : ch ≠ '/' := by rintro rfl; cases blank
  unfold inside
  rw [outside]
  simp [double, single, slash, blank]

theorem after_blanks {blanks : List Char} (outside : quotes.mode = none)
    (blank : ∀ ch ∈ blanks, isWhitespace ch = true) : quotes.after letters blanks = quotes := by
  induction blanks with
  | nil => rfl
  | cons ch blanks ih =>
    unfold after
    rw [List.foldl_cons, inside_blank outside (blank ch List.mem_cons_self)]
    exact ih fun ch mem => blank ch (List.mem_cons_of_mem _ mem)

section

variable {quotes' : Quotes}

theorem Alike.inside (alike : quotes.Alike letters quotes') (ch : Char) :
    (quotes.inside letters ch).1 = (quotes'.inside letters ch).1 ∧
      (quotes.inside letters ch).2.Alike letters (quotes'.inside letters ch).2 := by
  obtain ⟨mode, escaping, last⟩ := quotes
  obtain ⟨mode', escaping', last'⟩ := quotes'
  obtain ⟨rfl, rfl, operand, word⟩ := alike
  unfold Quotes.inside
  cases mode with
  | some mode =>
    dsimp only
    split_ifs
    · exact ⟨rfl, rfl, rfl, operand, word⟩
    · exact ⟨rfl, rfl, rfl, operand, word⟩
    · exact ⟨rfl, rfl, rfl, rfl, rfl⟩
    · exact ⟨rfl, rfl, rfl, operand, word⟩
  | none =>
    dsimp only
    rw [operand, word]
    split_ifs
    · exact ⟨rfl, rfl, rfl, operand, word⟩
    · exact ⟨rfl, rfl, rfl, operand, word⟩
    · exact ⟨rfl, rfl, rfl, operand, word⟩
    · exact ⟨rfl, rfl, rfl, operand, word⟩
    · exact ⟨rfl, rfl, rfl, rfl, rfl⟩

theorem Alike.after (alike : quotes.Alike letters quotes') (text : List Char) :
    (quotes.after letters text).Alike letters (quotes'.after letters text) := by
  induction text generalizing quotes quotes' with
  | nil => exact alike
  | cons ch text ih => exact ih (alike.inside ch).2

theorem Alike.bare (alike : quotes.Alike letters quotes') (idx : Nat) (text : List Char) :
    quotes.bare letters idx text = quotes'.bare letters idx text := by
  induction text generalizing quotes quotes' idx with
  | nil => rfl
  | cons ch text ih =>
    rw [bare_cons, bare_cons, (alike.inside ch).1, ih (alike.inside ch).2]

theorem Alike.weigh (alike : quotes.Alike letters quotes') (value : Char → Int)
    (text : List Char) : quotes.weigh letters value text = quotes'.weigh letters value text := by
  rw [Quotes.weigh, Quotes.weigh, alike.bare]

theorem Alike.bareText (alike : quotes.Alike letters quotes') (text : List Char) :
    quotes.bareText letters text = quotes'.bareText letters text := by
  rw [Quotes.bareText, Quotes.bareText, alike.bare]

theorem Alike.trans {quotes'' : Quotes} (first : quotes.Alike letters quotes')
    (second : quotes'.Alike letters quotes'') : quotes.Alike letters quotes'' :=
  ⟨first.mode.trans second.mode, first.escaping.trans second.escaping,
    first.operand.trans second.operand, first.word.trans second.word⟩

theorem Alike.symm (alike : quotes.Alike letters quotes') : quotes'.Alike letters quotes :=
  ⟨alike.mode.symm, alike.escaping.symm, alike.operand.symm, alike.word.symm⟩

end

/-- A backslash escapes in a literal only. -/
theorem escaping_inside (sound : quotes.mode = none → quotes.escaping = false) (ch : Char)
    (outside : (quotes.inside letters ch).2.mode = none) :
    (quotes.inside letters ch).2.escaping = false := by
  obtain ⟨mode, escaping, last⟩ := quotes
  unfold inside at outside ⊢
  cases mode with
  | some mode =>
    dsimp only at outside ⊢
    split_ifs at outside ⊢ with escaped
    exact Bool.eq_false_iff.mpr escaped
  | none =>
    dsimp only at outside ⊢
    split_ifs at outside ⊢
    all_goals exact sound rfl

theorem escaping_after (sound : quotes.mode = none → quotes.escaping = false) (text : List Char) :
    (quotes.after letters text).mode = none → (quotes.after letters text).escaping = false := by
  induction text generalizing quotes with
  | nil => exact sound
  | cons ch text ih => exact ih (escaping_inside sound ch)

theorem bare_chars (idx : Nat) (text : List Char) :
    (quotes.bare letters idx text).map (·.2) = (quotes.bare letters 0 text).map (·.2) := by
  induction text generalizing quotes idx with
  | nil => rfl
  | cons ch text ih =>
    rw [bare_cons, bare_cons, List.map_append, List.map_append, ih, ih (0 + 1)]
    cases (quotes.inside letters ch).1 <;> rfl

theorem bareText_append (xs ys : List Char) :
    quotes.bareText letters (xs ++ ys) =
      quotes.bareText letters xs ++ (quotes.after letters xs).bareText letters ys := by
  rw [bareText, bare_append, List.map_append, bare_chars (0 + xs.length)]
  rfl

theorem mem_of_bare {idx place : Nat} {text : List Char}
    (mem : (place, ch) ∈ quotes.bare letters idx text) : ch ∈ text := by
  induction text generalizing quotes idx with
  | nil => cases mem
  | cons c text ih =>
    rw [bare_cons, List.mem_append] at mem
    obtain first | rest := mem
    · split_ifs at first
      · cases first
      · obtain ⟨-, rfl⟩ := Prod.mk.inj (List.mem_singleton.mp first)
        exact List.mem_cons_self
    · exact List.mem_cons_of_mem _ (ih rest)

theorem weigh_append (value : Char → Int) (xs ys : List Char) :
    quotes.weigh letters value (xs ++ ys) =
      quotes.weigh letters value xs + (quotes.after letters xs).weigh letters value ys := by
  have same : ((quotes.after letters xs).bare letters (0 + xs.length) ys).map (·.2) = _ :=
    bare_chars _ _
  have chars := congrArg (fun cs => (cs.map value).sum) same
  simp only [List.map_map] at chars
  unfold weigh
  rw [bare_append, List.map_append, List.sum_append]
  exact congrArg _ chars

theorem weigh_cons (value : Char → Int) (ch : Char) (cs : List Char) :
    quotes.weigh letters value (ch :: cs) = (if (quotes.inside letters ch).1 then 0 else value ch) +
      (quotes.inside letters ch).2.weigh letters value cs := by
  rw [← List.singleton_append, weigh_append]
  congr 1
  rw [weigh, bare_cons]
  cases (quotes.inside letters ch).1 <;> simp [bare]

theorem weigh_zero {value : Char → Int} {text : List Char} (zero : ∀ ch ∈ text, value ch = 0) :
    quotes.weigh letters value text = 0 := by
  apply List.sum_eq_zero
  intro x mem
  obtain ⟨⟨place, ch⟩, bare, rfl⟩ := List.mem_map.mp mem
  exact zero ch (mem_of_bare bare)

end

end Quotes

structure SourceLine where
  number : Nat
  text : List Char
  deriving DecidableEq

variable (letters : Char → Bool)

/-! ### Lines -/

def trimEnd (text : List Char) : List Char := text.rdropWhile isWhitespace


theorem trimmed_parts (text : List Char) : ∃ lead trail, text = lead ++ trimmed text ++ trail ∧
    (∀ ch ∈ lead, isWhitespace ch = true) ∧ ∀ ch ∈ trail, isWhitespace ch = true := by
  refine ⟨text.takeWhile isWhitespace, (text.dropWhile isWhitespace).rtakeWhile isWhitespace, ?_,
    fun _ => List.mem_takeWhile_imp, fun _ => List.mem_rtakeWhile_imp⟩
  have back : (text.dropWhile isWhitespace).rdropWhile isWhitespace ++
      (text.dropWhile isWhitespace).rtakeWhile isWhitespace = text.dropWhile isWhitespace := by
    rw [List.rdropWhile, List.rtakeWhile, ← List.reverse_append, List.takeWhile_append_dropWhile,
      List.reverse_reverse]
  rw [trimmed, List.append_assoc, back, List.takeWhile_append_dropWhile]

theorem trimmed_eq_self_iff (text : List Char) : trimmed text = text ↔
    (∀ ch, text.head? = some ch → isWhitespace ch = false) ∧
      ∀ ch, text.getLast? = some ch → isWhitespace ch = false := by
  have front : text.dropWhile isWhitespace = text ↔
      ∀ ch, text.head? = some ch → isWhitespace ch = false := by
    cases text <;> simp [List.dropWhile_eq_self_iff]
  have back : text.rdropWhile isWhitespace = text ↔
      ∀ ch, text.getLast? = some ch → isWhitespace ch = false := by
    rw [List.rdropWhile_eq_self_iff]
    cases text <;> simp [List.getLast?_eq_some_getLast]
  rw [← front, ← back, trimmed]
  constructor
  · intro same
    have suffix := List.dropWhile_suffix (l := text) isWhitespace
    have shorter := (List.rdropWhile_prefix isWhitespace (text.dropWhile isWhitespace)).length_le
    rw [same] at shorter
    have whole := suffix.eq_of_length (Nat.le_antisymm suffix.length_le shorter)
    rw [whole] at same
    exact ⟨whole, same⟩
  · rintro ⟨whole, same⟩
    rw [whole, same]

/-- Blanks around a text that ends in none are trimmed. -/
theorem trimmed_padded {lead front trail : List Char} {last : Char}
    (leads : ∀ ch ∈ lead, isWhitespace ch = true) (solid : isWhitespace last = false)
    (trails : ∀ ch ∈ trail, isWhitespace ch = true) :
    trimmed (lead ++ (front ++ [last]) ++ trail) = (front ++ [last]).dropWhile isWhitespace := by
  have kept : (front ++ [last]).dropWhile isWhitespace =
      front.dropWhile isWhitespace ++ [last] := by
    rw [List.dropWhile_append]
    split_ifs with none
    · rw [List.isEmpty_iff.mp none, List.dropWhile_cons_of_neg (by rw [solid]; decide)]
      rfl
    · rfl
  rw [trimmed, List.append_assoc, List.dropWhile_append_of_pos leads, List.dropWhile_append, kept,
    if_neg (by simp), List.rdropWhile, List.reverse_append,
    List.dropWhile_append_of_pos (by simpa using trails), ← List.rdropWhile]
  exact List.rdropWhile_concat_neg _ _ _ (by rw [solid]; decide)

/-- Each piece but the last ends in a newline. -/
def splitInclusive : List Char → List (List Char)
  | [] => []
  | ch :: cs =>
      if ch = '\n' then [ch] :: splitInclusive cs
      else
        match splitInclusive cs with
        | [] => [[ch]]
        | piece :: pieces => (ch :: piece) :: pieces

def withoutEnding (piece : List Char) : List Char :=
  match piece.dropSuffix? ['\n'] with
  | none => piece
  | some line =>
      match line.dropSuffix? ['\r'] with
      | none => line
      | some line => line

/-- `str::lines`. -/
def strLines (source : List Char) : List (List Char) := (splitInclusive source).map withoutEnding

def stripComment (line : List Char) : List Char :=
  match (Quotes.bare letters {} 0 line).find? (·.2 = '#') with
  | some (idx, _) => line.take idx
  | none => line

/-- Comment-stripped, blank-free lines with 1-based numbers; a `#` inside a string is kept. -/
def lines (source : List Char) : List SourceLine :=
  (strLines source).zipIdx.filterMap fun (raw, idx) =>
    let text := trimmed (stripComment letters raw)
    if text = [] then none else some ⟨idx + 1, text⟩

def endsOutsideQuotes (text : List Char) : Bool := (Quotes.after letters {} text).mode.isNone

def endsWithBareBackslash (text : List Char) : Bool :=
  text.getLast? = some '\\' && endsOutsideQuotes letters text

def endsWithBareComma (text : List Char) : Bool :=
  text.getLast? = some ',' && endsOutsideQuotes letters text

def bracket (ch : Char) : Int :=
  if ch ∈ ['(', '\x7b', '['] then 1 else if ch ∈ [')', '\x7d', ']'] then -1 else 0

def bracketDelta (text : List Char) : Int := Quotes.weigh letters {} bracket text

/-- The lines so far, how deep the brackets stand, and the line that those which follow are merged
into. -/
structure Joining where
  out : List (List Char)
  depth : Int := 0
  mergeTarget : Option Nat := none

namespace Joining

/-- `push` at the end of a line that is there. -/
def extend (out : List (List Char)) (idx : Nat) (text : List Char) : List (List Char) :=
  out.modify idx (· ++ text)

def merge (out : List (List Char)) (target : Nat) (text : List Char) : List (List Char) :=
  if text = [] then out
  else out.modify target fun held => (if held = [] then held else held ++ [' ']) ++ text

/-- The lines with this one in its place, and the line it went to. -/
def place (joining : Joining) (idx : Nat) (text : List Char) : List (List Char) × Nat :=
  match joining.mergeTarget with
  | some target =>
      if target ≠ idx then (merge joining.out target text, target)
      else (extend joining.out idx text, idx)
  | none => (extend joining.out idx text, idx)

def step (joining : Joining) (idx : Nat) (rawLine : List Char) : Joining :=
  let stripped := trimmed (stripComment letters rawLine)
  let backslashContinues := endsWithBareBackslash letters stripped
  let text := if backslashContinues then trimEnd stripped.dropLast else stripped
  let (out, target) := joining.place idx text
  let depth := joining.depth + bracketDelta letters text
  let commaContinues := depth ≤ 0 && endsWithBareComma letters text
  if depth ≤ 0 then
    { out, depth := 0,
      mergeTarget := if !commaContinues && !backslashContinues then none else some target }
  else { out, depth, mergeTarget := some target }

def steps (joining : Joining) (idx : Nat) : List (List Char) → Joining
  | [] => joining
  | raw :: rest => steps (joining.step letters idx raw) (idx + 1) rest

end Joining

/-- Joins lines continued by open brackets, a trailing `\`, or a trailing `,`. Merged-away lines
become empty. -/
def joinContinuations (source : List Char) : List Char :=
  let rawLines := strLines source
  let joining : Joining := { out := List.replicate rawLines.length [] }
  ['\n'].intercalate (joining.steps letters 0 rawLines).out

/-! ### The shape gate -/

inductive Opener where
  | none
  | doBlock (params : Option (List Char))
  | braceBlock (body : List Char)
  deriving DecidableEq

/-- `args` is the raw text between the word and the opener. -/
structure Call where
  word : List Char
  args : List Char
  opener : Opener
  deriving DecidableEq

inductive LineShape where
  | «end»
  | call (call : Call)

def forbiddenLeadingWords : List (List Char) :=
  ["if", "unless", "while", "until", "case", "begin", "def", "class", "module", "return", "next",
    "break", "redo", "retry", "yield", "lambda", "proc", "for", "loop"].map String.toList

def fileReceiverPrefix : List Char := "Hecks.".toList

def leadingIdentifierEnd : List Char → Nat
  | [] => 0
  | ch :: cs =>
      if ch.isAlpha || ch = '_' then
        1 + (cs.takeWhile fun ch => ch.isAlphanum || ch = '_').length
      else 0

/-- Part of a wider operator, a hash-rocket or a compound assignment. -/
def isWideOperator (prev next : Option Char) : Bool :=
  prev.any ("=!<>+-*/~".toList.contains ·) || next.any ("=~>".toList.contains ·)

/-- The byte the source looks at before the `=` is no operator where it is part of a longer
character. -/
def findAssignment (text : List Char) (depth : Int) : List (Nat × Char) → Option Nat
  | [] => none
  | (idx, ch) :: rest =>
      if ch = '=' ∧ depth = 0 then
        if isWideOperator (text.take idx).getLast? text[idx + 1]? then
          findAssignment text depth rest
        else some (byteLength (text.take idx))
      else findAssignment text (depth + bracket ch) rest

def findTopLevelAssignment (text : List Char) : Option Nat :=
  findAssignment text 0 (Quotes.bare letters {} 0 text)

def rfind (ch : Char) (text : List Char) : Option Nat :=
  (text.reverse.findIdx? (· = ch)).map fun idx => text.length - 1 - idx

/-- The second way a block is opened, `do |params|`. -/
def doWithParams (text : List Char) : Option (List Char × Option (List Char)) := do
  let withoutTrailingPipe ← text.dropSuffix? ['|']
  let openPipe ← rfind '|' withoutTrailingPipe
  let params := withoutTrailingPipe.drop (openPipe + 1)
  let before ← (trimEnd (text.take openPipe)).dropSuffix? " do".toList
  return (before, some (trimmed params))

def trailingDo (rest : List Char) : Option (List Char × Option (List Char)) :=
  let text := trimEnd rest
  match text.dropSuffix? " do".toList with
  | some before => some (before, none)
  | none =>
      match doWithParams text with
      | some found => some found
      | none => if text = "do".toList then some ([], none) else none

/-- A brace after `:`, `,` or `>` opens a hash literal. -/
def isHashLiteralBrace (before : List Char) : Bool :=
  (trimEnd before).getLast?.any (":,>".toList.contains ·)

def findBrace (text : List Char) (parenDepth : Int) : List (Nat × Char) → Option Nat
  | [] => none
  | (idx, ch) :: rest =>
      if ch = '(' then findBrace text (parenDepth + 1) rest
      else if ch = ')' then findBrace text (parenDepth - 1) rest
      else if ch = '\x7b' ∧ parenDepth = 0 then
        if isHashLiteralBrace (text.take idx) then findBrace text parenDepth rest else some idx
      else findBrace text parenDepth rest

/-- A brace inside parens or written as a hash literal argument is not a source-body opener. -/
def findTopLevelBrace (text : List Char) : Option Nat :=
  findBrace text 0 (Quotes.bare letters {} 0 text)

def findClosing (text : List Char) (depth : Int) (start : Option Nat) :
    List (Nat × Char) → Option (List Char × List Char)
  | [] => none
  | (idx, ch) :: rest =>
      if ch = '\x7b' then
        findClosing text (depth + 1) (if depth = 0 then some (idx + 1) else start) rest
      else if ch = '\x7d' then
        if depth - 1 = 0 then
          start.map fun start => (trimmed ((text.take idx).drop start), text.drop (idx + 1))
        else findClosing text (depth - 1) start rest
      else findClosing text depth start rest

/-- The body of the block the text starts with, and what follows it. -/
def matchingBraceBody (text : List Char) : Option (List Char × List Char) :=
  findClosing text 0 none (Quotes.bare letters {} 0 text)

def splitOpener (rest : List Char) : List Char × Opener :=
  match trailingDo rest with
  | some (before, params) => (before, .doBlock params)
  | none =>
      match findTopLevelBrace letters rest with
      | some braceStart =>
          let braceAndAfter := rest.drop braceStart
          match matchingBraceBody letters braceAndAfter with
          | some (body, _after) => (rest.take braceStart, .braceBlock body)
          -- Unbalanced on this line: the body wraps across lines, so keep the whole tail.
          | none => (rest.take braceStart, .braceBlock braceAndAfter)
      | none => (rest, .none)

/-- Whether a closing paren comes before its opening one, by double quotes alone. -/
def closesEarly (depth : Int) (quoting escaping : Bool) : List Char → Bool
  | [] => false
  | ch :: cs =>
      if escaping then closesEarly depth quoting false cs
      else if quoting && ch = '\\' then closesEarly depth quoting true cs
      else if ch = '"' then closesEarly depth (!quoting) false cs
      else if quoting then closesEarly depth quoting false cs
      else if ch = '(' then closesEarly (depth + 1) quoting false cs
      else if ch = ')' then depth - 1 < 0 || closesEarly (depth - 1) quoting false cs
      else closesEarly depth quoting false cs

def stripBalancedParens (text : List Char) : List Char :=
  if text.head? = some '(' ∧ text.getLast? = some ')' ∧ 2 ≤ text.length then
    let inner := (text.drop 1).dropLast
    if closesEarly 0 false false inner then text else trimmed inner
  else text

/-- The text behind the word of a line, without its receiver. -/
def behindReceiver (text : List Char) : List Char := (text.dropPrefix? fileReceiverPrefix).getD text

def behindWord (text : List Char) : List Char :=
  (text.drop (leadingIdentifierEnd text)).dropWhile isWhitespace

def refuse {α : Type} (file : String) (line : SourceLine) (message : String) :
    Except Diagnostic α :=
  .error { file, line := line.number, message }

def classify (file : String) (line : SourceLine) : Except Diagnostic LineShape :=
  let text := behindReceiver line.text
  if text = "end".toList then .ok .end
  else
    let wordEnd := leadingIdentifierEnd text
    if wordEnd = 0 then
      refuse file line ("'" ++ String.ofList text ++
        "' is not a word call — every line must be a keyword call or `end`")
    else
      let word := text.take wordEnd
      if word ∈ forbiddenLeadingWords then
        refuse file line ("'" ++ String.ofList word ++
          "' is a bare Ruby control-flow/declaration form, which this parser never " ++
          "interprets — a bluebook may only use keyword calls this language declares")
      else
        let rest := behindWord text
        match findTopLevelAssignment letters rest with
        | some topLevelEq =>
            refuse file line ("'" ++ String.ofList text ++
              "' looks like a local variable assignment at byte " ++ toString topLevelEq ++
              " — this parser never interprets bare Ruby expressions or assignment")
        | none =>
            let (args, opener) := splitOpener letters rest
            .ok (.call { word, args := stripBalancedParens (trimmed args), opener })

end Hecks.Parser.Lex
