import Hecks.Lib.Layout
import Hecks.Lib.Reading
import Hecks.Sentence.Phrases

/-! The lines of a sentence file, and the blocks they are read in. -/
namespace Hecks.Sentence

abbrev Text := List Char

/-- A refusal: where it happened, what is wrong and what would have been accepted. -/
structure Diagnostic where
  file : String
  line : Nat
  column : Option Nat := none
  message : String
  expected : List Text := []

abbrev ParseResult := Except Diagnostic

/-- One non-blank, non-comment line of the file. -/
structure Line where
  number : Nat
  indent : Nat
  text : Text
  deriving DecidableEq

/-- The bytes of a text. -/
def byteLength (text : Text) : Nat := (text.map Char.utf8Size).sum

def trimEnd (text : Text) : Text := (text.reverse.dropWhile isWhitespace).reverse

/-- `str::lines` -/
def linesOf (source : Text) : List Text :=
  let pieces := splitAt '\n' source
  if pieces.getLast? = some [] then pieces.dropLast else pieces

def readLine (file : String) (number : Nat) (raw : Text) : ParseResult (List Line) :=
  let text := trimEnd raw
  let leading := text.takeWhile isWhitespace
  let body := text.dropWhile isWhitespace
  if body.isEmpty || body.head? = some '#' then .ok []
  else if leading.contains '\t' then
    .error { file, line := number, column := some 1,
             message := "this line is indented with a tab; indent with spaces" }
  else .ok [⟨number, byteLength leading, body⟩]

/-- The lines of the source, `read` of them before these. -/
def readFrom (file : String) : (read : Nat) → List Text → ParseResult (List Line)
  | _, [] => .ok []
  | read, raw :: rest => do
      let line ← readLine file (read + 1) raw
      let lines ← readFrom file (read + 1) rest
      return line ++ lines

def readLines (file : String) (source : Text) : ParseResult (List Line) :=
  readFrom file 0 (linesOf source)

/-- A phrase that matched a line, with what its slots took. -/
structure Matched where
  id : String
  found : Captures
  line : Nat
  indent : Nat
  baseCol : Nat
  text : Text

def captureOf (found : Captures) (name : String) : Capture :=
  ((found.find? fun slot => slot.1 = name.toList).map (·.2)).getD {}

/-- The 1-based column of a character of `text`, which itself starts at column `base`. -/
def columnAt (base : Nat) (text : Text) (offset : Nat) : Nat :=
  if offset ≤ text.length then base + offset else base

def Matched.capture (m : Matched) (name : String) : Capture := captureOf m.found name

def Matched.textOf (m : Matched) (name : String) : Text := (m.capture name).value

/-- The column of a capture's first character. -/
def Matched.colOf (m : Matched) (name : String) : Nat :=
  columnAt m.baseCol m.text (m.capture name).offset

inductive Step where
  | phrase (m : Matched)
  | prose (text : Text)

/-- Which lines still belong to the block being read, and how far in they stand. -/
structure Scope where
  parent : Option Nat
  child : Option Nat
  first : Bool

def Scope.top : Scope := ⟨none, some 0, true⟩

def Scope.inside (parentIndent : Nat) : Scope := ⟨some parentIndent, none, true⟩

def contextLabel : Context → String
  | .file => "the top of a file"
  | .domain => "a domain"
  | .vision => "a domain's description"
  | .aggregate => "an aggregate"
  | .has => "an 'It has:' list"
  | .valueObject => "a value object"
  | .lifecycle => "a lifecycle"
  | .command => "a command"
  | .policy => "a policy"
  | .query => "a query"
  | .report => "a report"
  | .process => "a process"
  | .handler => "a step of a process"
  | .condition => "a condition"
  | .provides => "this place"
  | .fields => "this place"

/-- What every reader of one file works with. -/
structure Parser where
  file : String
  grammar : Grammar

namespace Parser

variable (p : Parser)

/-- A refusal pointing at `col` of `line`. -/
def error (line col : Nat) (message : String) : Diagnostic :=
  { file := p.file, line, column := some col, message }

def unmatchedError (context : Context) (line : Line) (unmatched : Unmatched) : Diagnostic :=
  { p.error line.number unmatched.column
      (s!"this is not a sentence I know in {contextLabel context}: " ++
        s!"\"{String.ofList line.text}\"") with expected := unmatched.suggestions }

def matchedAt (line : Line) (held : Phrase × Captures) : Matched :=
  ⟨held.1.id, held.2, line.number, line.indent, line.indent + 1, line.text⟩

/-- What is wrong with how far in a line of the block stands. -/
def misplaced (scope : Scope) (line : Line) : Option String :=
  match scope.child with
  | none => none
  | some expected =>
      if expected < line.indent then
        some "this line is indented further than the lines above it"
      else if line.indent < expected then
        some "this line is indented less than the lines above it"
      else none

/-- What a line of the block says, or why it says nothing. -/
def lineStep (first : Bool) (context : Context) (allowProse : Bool) (line : Line)
    (rest : List Line) : ParseResult Step :=
  match matchText p.grammar context line.text (line.indent + 1) with
  | .ok held => .ok (.phrase (matchedAt line held))
  | .error unmatched =>
      if first && allowProse && !rest.head?.any (line.indent < ·.indent) &&
          line.text.getLast? ≠ some ':' then
        .ok (.prose line.text)
      else .error (p.unmatchedError context line unmatched)

/-- Reads the next line of the block the scope describes: what it says, the scope after it and the
lines after it. `none` where the block ends. -/
def step (scope : Scope) (context : Context) (allowProse : Bool) :
    List Line → ParseResult (Option (Step × Scope × List Line))
  | [] => .ok none
  | line :: rest =>
      if !Layout.inside Line.indent scope.parent line then .ok none
      else
        match misplaced scope line with
        | some message => .error (p.error line.number 1 message)
        | none =>
            (p.lineStep scope.first context allowProse line rest).map fun step =>
              some (step, ⟨scope.parent, some line.indent, false⟩, rest)

/-- The reading of a block in its own loop, one step at a time. Each step takes a line, so there
are no more of them than lines. -/
def readBlock {σ : Type} (context : Context) (allowProse : Bool)
    (take : σ → Step → List Line → ParseResult (σ × List Line)) :
    (fuel : Nat) → Scope → σ → List Line → ParseResult (σ × List Line)
  | 0, _, state, lines => .ok (state, lines)
  | fuel + 1, scope, state, lines => do
      match ← p.step scope context allowProse lines with
      | none => return (state, lines)
      | some (step, after, rest) =>
          let taken ← take state step rest
          readBlock context allowProse take fuel after taken.1 taken.2

/-- The block under a header. -/
def block {σ : Type} (context : Context) (allowProse : Bool) (header : Nat)
    (take : σ → Step → List Line → ParseResult (σ × List Line)) (state : σ) (lines : List Line) :
    ParseResult (σ × List Line) :=
  p.readBlock context allowProse take lines.length (.inside header) state lines

/-- What a line says in this place, by the name of its phrase. -/
def phraseOf (context : Context) (line : Line) : Option String :=
  match matchText p.grammar context line.text (line.indent + 1) with
  | .ok held => some held.1.id
  | .error _ => none

/-- What a line of a block can come to. -/
inductive Comes (context : Context) (line : Line) : Step → Prop
  | phrase {held : Phrase × Captures}
      (fits : matchText p.grammar context line.text (line.indent + 1) = .ok held) :
      Comes context line (.phrase (matchedAt line held))
  | prose {unmatched : Unmatched}
      (unfit : matchText p.grammar context line.text (line.indent + 1) = .error unmatched) :
      Comes context line (.prose line.text)

/-- What a reader did with a line. -/
def Acts {σ : Type} (context : Context) (take : σ → Step → List Line → ParseResult (σ × List Line))
    (state : σ) (line : Line) (rest : List Line) (state' : σ) : Prop :=
  ∃ step rest', p.Comes context line step ∧ take state step rest = .ok (state', rest')

/-- A reader takes no line, or all that the line it was given heads. -/
def Careful {σ : Type} (take : σ → Step → List Line → ParseResult (σ × List Line)) : Prop :=
  ∀ {state step rest state' rest'}, take state step rest = .ok (state', rest') →
    rest' = rest ∨ ∃ m, step = .phrase m ∧ rest' = Layout.skip Line.indent m.indent rest

variable {p} {context : Context} {allowProse : Bool}

theorem lineStep_comes {first : Bool} {line : Line} {rest : List Line} {step : Step}
    (read : p.lineStep first context allowProse line rest = .ok step) :
    p.Comes context line step := by
  rw [lineStep] at read
  split at read
  · rename_i held fits
    cases read
    exact .phrase fits
  · rename_i unmatched unfit
    split at read
    · cases read
      exact .prose unfit
    · cases read

theorem level_of_misplaced {scope : Scope} {line : Line} (fits : misplaced scope line = none)
    {e : Nat} (child : scope.child = some e) : line.indent = e := by
  rw [misplaced, child] at fits
  dsimp only at fits
  split at fits
  · cases fits
  · split at fits
    · cases fits
    · omega

theorem step_none {scope : Scope} {lines : List Line}
    (stops : p.step scope context allowProse lines = .ok none) :
    ∀ line ∈ lines.head?, Layout.inside Line.indent scope.parent line = false := by
  intro line head
  cases lines with
  | nil => cases head
  | cons first rest =>
    cases head
    rw [step] at stops
    split at stops
    · rename_i outside
      simpa using outside
    · split at stops
      · cases stops
      · cases read : p.lineStep scope.first context allowProse line rest with
        | error refused => rw [read] at stops; cases stops
        | ok step => rw [read] at stops; cases stops

theorem step_some {scope after : Scope} {lines rest : List Line} {step : Step}
    (steps : p.step scope context allowProse lines = .ok (some (step, after, rest))) :
    ∃ line, lines = line :: rest ∧ Layout.inside Line.indent scope.parent line = true ∧
      (∀ {e}, scope.child = some e → line.indent = e) ∧ p.Comes context line step ∧
      after = ⟨scope.parent, some line.indent, false⟩ := by
  cases lines with
  | nil => cases steps
  | cons line lines =>
    rw [Parser.step] at steps
    split at steps
    · cases steps
    · rename_i within
      split at steps
      · cases steps
      · rename_i fits
        cases read : p.lineStep scope.first context allowProse line lines with
        | error refused => rw [read] at steps; cases steps
        | ok read' =>
          rw [read] at steps
          cases steps
          refine ⟨line, rfl, ?_, fun child => level_of_misplaced fits child,
            lineStep_comes read, rfl⟩
          simpa using within

theorem step_fits {scope : Scope} {line : Line} {held : Phrase × Captures} (rest : List Line)
    (within : Layout.inside Line.indent scope.parent line = true)
    (placed : misplaced scope line = none)
    (fits : matchText p.grammar context line.text (line.indent + 1) = .ok held) :
    p.step scope context allowProse (line :: rest) = .ok (some
      (.phrase (matchedAt line held), ⟨scope.parent, some line.indent, false⟩, rest)) := by
  have said : p.lineStep scope.first context allowProse line rest =
      .ok (.phrase (matchedAt line held)) := by rw [lineStep, fits]
  rw [step, within, placed, said]
  rfl

section

variable {σ : Type} {take : σ → Step → List Line → ParseResult (σ × List Line)}

theorem readBlock_next {fuel : Nat} {scope after : Scope} {state state' : σ}
    {lines rest rest' : List Line} {step : Step}
    (steps : p.step scope context allowProse lines = .ok (some (step, after, rest)))
    (taken : take state step rest = .ok (state', rest')) :
    p.readBlock context allowProse take (fuel + 1) scope state lines =
      p.readBlock context allowProse take fuel after state' rest' := by
  rw [readBlock, steps]
  exact Reading.bind_ok_eq taken

/-- A loop that accepts has read the block's own lines in turn, and stands at one of its level or
at the end. -/
theorem readBlock_chain (careful : Careful take) {fuel : Nat} {scope : Scope} {e : Nat}
    {state state' : σ} {lines rest : List Line} (enough : lines.length ≤ fuel)
    (child : scope.child = some e ∨ scope.child = none ∧ ∀ line ∈ lines.head?, line.indent = e)
    (under : scope.parent.all (· < e))
    (read : p.readBlock context allowProse take fuel scope state lines = .ok (state', rest)) :
    Layout.Chain Line.indent scope.parent e (p.Acts context take) state lines state' rest ∧
      ∀ line ∈ lines.head?, line.indent ≤ e := by
  induction fuel generalizing scope state lines with
  | zero =>
    cases lines with
    | nil =>
      cases read
      refine ⟨.done ?_, ?_⟩ <;> exact fun _ head => absurd head (Option.not_mem_none _)
    | cons line lines => exact absurd enough (Nat.not_succ_le_zero _)
  | succ fuel ih =>
    rw [readBlock] at read
    obtain ⟨stepped, steps, read⟩ := Reading.bind_eq_ok.mp read
    cases stepped with
    | none =>
      cases read
      have ended := step_none steps
      refine ⟨.done ended, ?_⟩
      intro line head
      by_contra deeper
      have within := Layout.inside_of_le under (Nat.le_of_lt (Nat.lt_of_not_le deeper))
      rw [ended line head] at within
      cases within
    | some stepped =>
      obtain ⟨step, after, lines'⟩ := stepped
      obtain ⟨taken, takes, goes⟩ := Reading.bind_eq_ok.mp read
      obtain ⟨line, here, within, level, comes, followed⟩ := step_some steps
      subst here followed
      have level : line.indent = e := by
        obtain held | ⟨_, first⟩ := child
        · exact level held
        · exact first line rfl
      have shorter : taken.2.length ≤ fuel := by
        have sublist : taken.2.Sublist lines' := by
          obtain same | ⟨m, _, same⟩ := careful takes
          · rw [same]
          · rw [same]
            exact Layout.skip_sublist _ _ _
        have := sublist.length_le
        rw [List.length_cons] at enough
        omega
      obtain ⟨later, shallow⟩ := ih shorter (by exact .inl (congrArg some level))
        (by exact under) goes
      have skipped : taken.2 = Layout.skip Line.indent e lines' := by
        obtain same | ⟨m, phrase, same⟩ := careful takes
        · rw [same] at shallow ⊢
          exact (Layout.skip_of_head shallow).symm
        · subst phrase
          cases comes
          rw [same, ← level]
          rfl
      rw [skipped] at later
      refine ⟨.next level ⟨step, taken.2, comes, takes⟩ later, ?_⟩
      intro first head
      cases head
      exact level.le

/-- A block that is accepted was read to its end, its own lines in turn. -/
theorem block_chain (careful : Careful take) {header : Nat} {state state' : σ}
    {lines rest : List Line}
    (read : p.block context allowProse header take state lines = .ok (state', rest)) :
    ∃ e, header < e ∧
      Layout.own Line.indent header lines = Layout.ownAt Line.indent (some header) e lines ∧
      Layout.Chain Line.indent (some header) e (p.Acts context take) state lines state' rest := by
  cases lines with
  | nil =>
    cases read
    refine ⟨header + 1, Nat.lt_succ_self _, rfl, .done ?_⟩
    exact fun _ head => absurd head (Option.not_mem_none _)
  | cons line lines =>
    by_cases under : header < line.indent
    · have child : (Scope.inside header).child = some line.indent ∨
          (Scope.inside header).child = none ∧
            ∀ first ∈ (line :: lines).head?, first.indent = line.indent := by
        refine .inr ⟨rfl, ?_⟩
        intro first head
        cases head
        rfl
      have chain := readBlock_chain careful (Nat.le_refl _) child (decide_eq_true under) read
      exact ⟨line.indent, under, rfl, chain.1⟩
    · have ended : Layout.inside Line.indent (some header) line = false := decide_eq_false under
      have stops : p.step (.inside header) context allowProse (line :: lines) = .ok none := by
        rw [step, if_pos (by rw [Scope.inside, ended]; rfl)]
      rw [block, List.length_cons, readBlock, stops] at read
      cases read
      refine ⟨header + 1, Nat.lt_succ_self _, ?_, .done ?_⟩
      · rw [Layout.own, Layout.ownAt_ended ended, Layout.ownAt_ended ended]
      · intro first head
        cases head
        exact ended

end

end Parser

end Hecks.Sentence
