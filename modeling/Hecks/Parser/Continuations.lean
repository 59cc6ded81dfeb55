import Hecks.Parser.Joining

/-! Statements broken onto further lines behind commas and opening brackets, and what joining makes
of them. -/
namespace Hecks.Parser.Lex

open Canonical (trimmed)
open Text (isWhitespace)

variable {letters : Char → Bool}

/-! ### Up to spacing -/

/-- A text without the blanks outside its literals. -/
def Quotes.squeeze (letters : Char → Bool) (quotes : Quotes) : List Char → List Char
  | [] => []
  | ch :: cs =>
      (if !(quotes.inside letters ch).1 && isWhitespace ch then [] else [ch]) ++
        (quotes.inside letters ch).2.squeeze letters cs

theorem Quotes.squeeze_append {quotes : Quotes} (xs ys : List Char) :
    quotes.squeeze letters (xs ++ ys) =
      quotes.squeeze letters xs ++ (quotes.after letters xs).squeeze letters ys := by
  induction xs generalizing quotes with
  | nil => rfl
  | cons ch xs ih =>
    rw [List.cons_append, squeeze, squeeze, ih, List.append_assoc]
    rfl

theorem Quotes.Alike.squeeze {quotes quotes' : Quotes} (alike : quotes.Alike letters quotes')
    (text : List Char) : quotes.squeeze letters text = quotes'.squeeze letters text := by
  induction text generalizing quotes quotes' with
  | nil => rfl
  | cons ch text ih =>
    rw [Quotes.squeeze, Quotes.squeeze, (alike.inside ch).1, ih (alike.inside ch).2]

theorem Quotes.squeeze_blanks {quotes : Quotes} {blanks : List Char} (outside : quotes.mode = none)
    (blank : ∀ ch ∈ blanks, isWhitespace ch = true) : quotes.squeeze letters blanks = [] := by
  induction blanks with
  | nil => rfl
  | cons ch blanks ih =>
    have first := blank ch List.mem_cons_self
    rw [squeeze, inside_blank outside first, first]
    exact ih fun ch mem => blank ch (List.mem_cons_of_mem _ mem)

/-! ### Statements -/

/-- A line with nothing but a comment on it. -/
def Blank (line : List Char) : Prop :=
  ∃ spaces comment, line = spaces ++ comment ∧ (∀ ch ∈ spaces, isWhitespace ch = true) ∧
    (comment = [] ∨ comment.head? = some '#')

/-- A piece of a statement on a line of its own: the blanks before it, what stands behind it on the
line, and the blank lines that follow. -/
structure Piece where
  indent : List Char
  text : List Char
  trail : List Char
  blanks : List (List Char)

structure Piece.Laid (piece : Piece) : Prop where
  indent : ∀ ch ∈ piece.indent, isWhitespace ch = true
  trail : Blank piece.trail
  blanks : ∀ line ∈ piece.blanks, Blank line

def Piece.lines (piece : Piece) : List (List Char) :=
  (piece.indent ++ piece.text ++ piece.trail) :: piece.blanks

def textOf (pieces : List Piece) : List Char := pieces.flatMap Piece.text

/-- Behind these texts the line may be broken: the second ends in a comma or an opening bracket
outside any literal. -/
def Break (letters : Char → Bool) (before text : List Char) : Prop :=
  ∃ front mark, text = front ++ [mark] ∧ mark ∈ [',', '(', '\x7b', '['] ∧
    (Quotes.after letters {} (before ++ front)).mode = none

/-- Every piece but the last ends where a line may be broken. -/
def Broken (letters : Char → Bool) (before : List Char) : List Piece → Prop
  | [] => False
  | [piece] => piece.text ≠ []
  | piece :: next :: rest =>
      Break letters before piece.text ∧ Broken letters (before ++ piece.text) (next :: rest)

/-- A statement as it stands on one line: its literals are closed, its brackets balance, there is no
comment in it, and it is not continued. -/
structure Whole (letters : Char → Bool) (text : List Char) : Prop where
  oneLine : '\n' ∉ text
  trimmed : trimmed text = text
  closed : (Quotes.after letters {} text).mode = none
  level : Quotes.weigh letters {} bracket text = 0
  nested : ∀ front, front <+: text → 0 ≤ Quotes.weigh letters {} bracket front
  plain : '#' ∉ Quotes.bareText letters {} text
  comma : text.getLast? ≠ some ','
  backslash : text.getLast? ≠ some '\\'

/-- A statement on as many lines as it has pieces. -/
structure Statement (letters : Char → Bool) where
  pieces : List Piece
  laid : ∀ piece ∈ pieces, piece.Laid
  broken : Broken letters [] pieces
  whole : Whole letters (textOf pieces)

def Statement.text (statement : Statement letters) : List Char := textOf statement.pieces

def Statement.lines (statement : Statement letters) : List (List Char) :=
  statement.pieces.flatMap Piece.lines

/-- No blank line follows a break outside all brackets. -/
def Joinable (letters : Char → Bool) (before : List Char) : List Piece → Prop
  | [] | [_] => True
  | piece :: next :: rest =>
      (Quotes.weigh letters {} bracket (before ++ piece.text) = 0 → piece.blanks = []) ∧
        Joinable letters (before ++ piece.text) (next :: rest)

/-- The statements with the numbers of their first lines, the first of them at `start`. -/
def numbered (start : Nat) : List (Statement letters) → List (Nat × List Char)
  | [] => []
  | statement :: rest =>
      (start, Quotes.squeeze letters {} statement.text) ::
        numbered (start + statement.lines.length) rest

/-! ### A piece -/

/-- The pieces to come of a statement. -/
structure Ahead (letters : Char → Bool) (before : List Char) (pieces : List Piece) : Prop where
  laid : ∀ piece ∈ pieces, piece.Laid
  broken : Broken letters before pieces
  whole : Whole letters (before ++ textOf pieces)
  alike : (Quotes.after letters {} before).Alike letters {}

theorem Statement.ahead (statement : Statement letters) :
    Ahead letters [] statement.pieces :=
  ⟨statement.laid, statement.broken, statement.whole, ⟨rfl, rfl, rfl, rfl⟩⟩

theorem textOf_cons (piece : Piece) (rest : List Piece) :
    textOf (piece :: rest) = piece.text ++ textOf rest := List.flatMap_cons

/-- Behind a break the scan has the same ahead of it as at the start of a line. -/
theorem Break.alike {before text : List Char} (here : Break letters before text) :
    (Quotes.after letters {} (before ++ text)).Alike letters {} := by
  obtain ⟨front, mark, rfl, mem, outside⟩ := here
  have escaping : (Quotes.after letters {} (before ++ front)).escaping = false :=
    Quotes.escaping_after (fun _ => rfl) _ outside
  rw [← List.append_assoc, Quotes.after_append]
  generalize Quotes.after letters {} (before ++ front) = quotes at outside escaping ⊢
  obtain ⟨mode, escaped, last⟩ := quotes
  obtain rfl : mode = none := outside
  obtain rfl : escaped = false := escaping
  simp only [List.mem_cons, List.not_mem_nil, or_false] at mem
  obtain rfl | rfl | rfl | rfl := mem <;> exact ⟨rfl, rfl, rfl, rfl⟩

namespace Ahead

variable {before : List Char} {piece next : Piece} {rest : List Piece}

theorem here (ahead : Ahead letters before (piece :: next :: rest)) :
    Break letters before piece.text := ahead.broken.1

/-- The pieces behind a piece. -/
theorem behind (ahead : Ahead letters before (piece :: next :: rest)) :
    Ahead letters (before ++ piece.text) (next :: rest) where
  laid other mem := ahead.laid other (List.mem_cons_of_mem _ mem)
  broken := ahead.broken.2
  whole := by
    have whole := ahead.whole
    rwa [textOf_cons, ← List.append_assoc] at whole
  alike := ahead.here.alike

/-- The piece ends in a character that is neither a blank nor a backslash, outside any literal. -/
theorem ends (ahead : Ahead letters before (piece :: rest)) :
    ∃ front last, piece.text = front ++ [last] ∧ isWhitespace last = false ∧ last ≠ '\\' ∧
      (Quotes.after letters {} (before ++ piece.text)).mode = none := by
  cases rest with
  | nil =>
    have whole := ahead.whole
    rw [textOf_cons, show textOf [] = [] from rfl, List.append_nil] at whole
    obtain ⟨front, last, text⟩ := (List.eq_nil_or_concat' piece.text).resolve_left ahead.broken
    have final : (before ++ piece.text).getLast? = some last := by
      rw [text, ← List.append_assoc, List.getLast?_append]
      rfl
    refine ⟨front, last, text, ((trimmed_eq_self_iff _).mp whole.trimmed).2 _ final, ?_,
      whole.closed⟩
    rintro rfl
    exact whole.backslash final
  | cons next rest =>
    have alike := ahead.here.alike.mode
    obtain ⟨front, mark, text, mem, -⟩ := ahead.here
    refine ⟨front, mark, text, ?_, ?_, alike⟩
    · simp only [List.mem_cons, List.not_mem_nil, or_false] at mem
      obtain rfl | rfl | rfl | rfl := mem <;> rfl
    · rintro rfl
      simp at mem

/-- There is no comment in the piece, read as a line of its own. -/
theorem plain (ahead : Ahead letters before (piece :: rest)) :
    '#' ∉ Quotes.bareText letters {} piece.text := by
  have plain := ahead.whole.plain
  rw [textOf_cons, Quotes.bareText_append, Quotes.bareText_append, ahead.alike.bareText] at plain
  intro mem
  exact plain (List.mem_append_right _ (List.mem_append_left _ mem))

theorem after_text (ahead : Ahead letters before (piece :: rest)) :
    (Quotes.after letters {} (before ++ piece.text)).Alike letters
      (Quotes.after letters {} piece.text) := by
  rw [Quotes.after_append]
  exact ahead.alike.after _

end Ahead

/-- The text of a piece as its line is left with it. -/
def Piece.core (piece : Piece) : List Char := piece.text.dropWhile isWhitespace

theorem Piece.core_parts (piece : Piece) : ∃ lead, piece.text = lead ++ piece.core ∧
    ∀ ch ∈ lead, isWhitespace ch = true :=
  ⟨piece.text.takeWhile isWhitespace, List.takeWhile_append_dropWhile.symm,
    fun _ => List.mem_takeWhile_imp⟩

theorem hash_not_blank {blanks : List Char} (blank : ∀ ch ∈ blanks, isWhitespace ch = true)
    (quotes : Quotes) : '#' ∉ quotes.bareText letters blanks := by
  intro mem
  obtain ⟨⟨place, ch⟩, bare, rfl⟩ := List.mem_map.mp mem
  cases blank _ (Quotes.mem_of_bare bare)

theorem cleaned_blank {line : List Char} (blank : Blank line) : cleaned letters line = [] := by
  obtain ⟨spaces, comment, rfl, spaced, commented⟩ := blank
  have outside : (Quotes.after letters {} spaces).mode = none := by
    rw [Quotes.after_blanks rfl spaced]
  rw [cleaned, stripComment_append (hash_not_blank spaced _) outside commented, trimmed,
    List.dropWhile_eq_nil_iff.mpr spaced]
  rfl

namespace Ahead

variable {before : List Char} {piece : Piece} {rest : List Piece}

theorem cleaned_line (ahead : Ahead letters before (piece :: rest)) :
    cleaned letters (piece.indent ++ piece.text ++ piece.trail) = piece.core := by
  have laid := ahead.laid piece List.mem_cons_self
  obtain ⟨spaces, comment, trail, spaced, commented⟩ := laid.trail
  obtain ⟨front, last, text, solid, -, -⟩ := ahead.ends
  have inner : (Quotes.after letters {} piece.indent) = {} := Quotes.after_blanks rfl laid.indent
  have closed : (Quotes.after letters {} piece.text).mode = none := by
    obtain ⟨-, -, -, -, -, outside⟩ := ahead.ends
    rwa [ahead.after_text.mode] at outside
  have plain : '#' ∉ Quotes.bareText letters {} (piece.indent ++ piece.text ++ spaces) := by
    rw [Quotes.bareText_append, Quotes.bareText_append, inner, List.mem_append, List.mem_append]
    rintro ((mem | mem) | mem)
    · exact hash_not_blank laid.indent _ mem
    · exact ahead.plain mem
    · exact hash_not_blank spaced _ mem
  have outside : (Quotes.after letters {} (piece.indent ++ piece.text ++ spaces)).mode = none := by
    rw [Quotes.after_append, Quotes.after_append, inner, Quotes.after_blanks closed spaced]
    exact closed
  rw [cleaned, trail, ← List.append_assoc, stripComment_append plain outside commented, text,
    trimmed_padded laid.indent solid spaced, Piece.core, text]

/-- The piece and what its line is left with are alike to the scan. -/
theorem core_scan (piece : Piece) :
    Quotes.after letters {} piece.core = Quotes.after letters {} piece.text ∧
      Quotes.squeeze letters {} piece.core = Quotes.squeeze letters {} piece.text ∧
      Quotes.weigh letters {} bracket piece.core = Quotes.weigh letters {} bracket piece.text := by
  obtain ⟨lead, text, blank⟩ := piece.core_parts
  have same : Quotes.after letters {} lead = {} := Quotes.after_blanks rfl blank
  have level : Quotes.weigh letters {} bracket lead = 0 := by
    refine Quotes.weigh_zero fun ch mem => ?_
    have space := blank ch mem
    unfold bracket
    split_ifs with opens closes
    · simp only [List.mem_cons, List.not_mem_nil, or_false] at opens
      obtain rfl | rfl | rfl := opens <;> cases space
    · simp only [List.mem_cons, List.not_mem_nil, or_false] at closes
      obtain rfl | rfl | rfl := closes <;> cases space
    · rfl
  refine ⟨?_, ?_, ?_⟩
  · conv_rhs => rw [text, Quotes.after_append, same]
  · conv_rhs => rw [text, Quotes.squeeze_append, same, Quotes.squeeze_blanks rfl blank]
    rfl
  · conv_rhs => rw [text, Quotes.weigh_append, same, level, Int.zero_add]

theorem core_last (ahead : Ahead letters before (piece :: rest)) :
    ∃ front last, piece.core = front ++ [last] ∧ piece.text.getLast? = some last ∧
      isWhitespace last = false ∧ last ≠ '\\' := by
  obtain ⟨front, last, text, solid, backslash, -⟩ := ahead.ends
  have final : piece.text.getLast? = some last := by
    rw [text, List.getLast?_append]
    rfl
  obtain ⟨lead, parts, blank⟩ := piece.core_parts
  have filled : piece.core ≠ [] := by
    intro none
    rw [none, List.append_nil] at parts
    rw [parts] at final
    rw [blank last (List.mem_of_getLast? final)] at solid
    cases solid
  obtain ⟨front', last', core⟩ := (List.eq_nil_or_concat' piece.core).resolve_left filled
  have same : last' = last := by
    rw [parts, core, List.getLast?_append, List.getLast?_append] at final
    exact Option.some.inj final
  exact ⟨front', last, by rw [core, same], final, solid, backslash⟩

theorem core_clean (ahead : Ahead letters before (piece :: rest)) : Clean letters piece.core := by
  obtain ⟨front, last, core, -, solid, -⟩ := ahead.core_last
  obtain ⟨lead, parts, blank⟩ := piece.core_parts
  refine ⟨?_, (trimmed_eq_self_iff _).mpr ⟨?_, ?_⟩, ?_⟩
  · intro newline
    apply ahead.whole.oneLine
    rw [textOf_cons, parts]
    simp [newline]
  · intro ch first
    have ne : piece.text.dropWhile isWhitespace ≠ [] := by
      intro none
      rw [Piece.core, none] at first
      cases first
    have head := List.head_dropWhile_not isWhitespace ne
    rw [Piece.core, List.head?_eq_some_head ne, Option.some.injEq] at first
    rwa [first] at head
  · intro ch final
    rw [core, List.getLast?_append] at final
    obtain rfl := Option.some.inj final
    exact solid
  · have plain := ahead.plain
    rw [parts, Quotes.bareText_append, Quotes.after_blanks rfl blank] at plain
    exact fun mem => plain (List.mem_append_right _ mem)

end Ahead

/-! ### What is held -/

/-- The text held of the pieces read so far. -/
structure Held (letters : Char → Bool) (before held : List Char) : Prop where
  clean : Clean letters held
  filled : held ≠ []
  alike : (Quotes.after letters {} held).Alike letters (Quotes.after letters {} before)

namespace Ahead

variable {before held : List Char} {piece : Piece} {rest : List Piece}

theorem held_core (ahead : Ahead letters before (piece :: rest)) :
    Held letters (before ++ piece.text) piece.core where
  clean := ahead.core_clean
  filled := by
    obtain ⟨front, last, core, -⟩ := ahead.core_last
    rw [core]
    simp
  alike := by
    rw [(core_scan piece).1]
    exact ahead.after_text.symm

theorem merge_eq (ahead : Ahead letters before (piece :: rest))
    (holds : Held letters before held) :
    Work.mergeText held piece.core = held ++ [' '] ++ piece.core := by
  rw [Work.mergeText, if_neg ahead.held_core.filled, if_neg holds.filled]

/-- Behind what is held and a space the scan is where a line starts. -/
theorem after_held (ahead : Ahead letters before (piece :: rest))
    (holds : Held letters before held) :
    (Quotes.after letters {} held).mode = none ∧
      (Quotes.after letters {} (held ++ [' '])).Alike letters {} := by
  have alike := holds.alike.trans ahead.alike
  refine ⟨alike.mode, ?_⟩
  rw [Quotes.after_append, Quotes.after_blanks alike.mode (by simp [isWhitespace])]
  exact alike

theorem squeeze_merge (ahead : Ahead letters before (piece :: rest))
    (holds : Held letters before held) :
    Quotes.squeeze letters {} (Work.mergeText held piece.core) =
      Quotes.squeeze letters {} held ++ Quotes.squeeze letters {} piece.text := by
  obtain ⟨outside, alike⟩ := ahead.after_held holds
  rw [ahead.merge_eq holds, Quotes.squeeze_append, Quotes.squeeze_append,
    Quotes.squeeze_blanks outside (by simp [isWhitespace]), List.append_nil, alike.squeeze,
    (core_scan piece).2.1]

theorem held_merge (ahead : Ahead letters before (piece :: rest))
    (holds : Held letters before held) :
    Held letters (before ++ piece.text) (Work.mergeText held piece.core) := by
  obtain ⟨outside, alike⟩ := ahead.after_held holds
  have core := ahead.held_core
  rw [ahead.merge_eq holds]
  refine ⟨⟨?_, (trimmed_eq_self_iff _).mpr ⟨?_, ?_⟩, ?_⟩, by simp, ?_⟩
  · rw [List.mem_append, List.mem_append]
    rintro ((newline | newline) | newline)
    · exact holds.clean.oneLine newline
    · simp at newline
    · exact core.clean.oneLine newline
  · intro ch first
    rw [List.append_assoc, List.head?_append_of_ne_nil _ holds.filled] at first
    exact ((trimmed_eq_self_iff _).mp holds.clean.trimmed).1 ch first
  · intro ch final
    rw [List.getLast?_append_of_ne_nil _ core.filled] at final
    exact ((trimmed_eq_self_iff _).mp core.clean.trimmed).2 ch final
  · rw [Quotes.bareText_append, Quotes.bareText_append, alike.bareText, List.mem_append,
      List.mem_append]
    rintro ((hash | hash) | hash)
    · exact holds.clean.plain hash
    · exact hash_not_blank (by simp [isWhitespace]) _ hash
    · exact core.clean.plain hash
  · rw [Quotes.after_append]
    exact (alike.after _).trans core.alike

end Ahead

/-! ### A run -/

namespace Work

variable {work : Work} {before : List Char} {piece next : Piece} {rest : List Piece}

theorem run_append (xs ys : List (List Char)) :
    work.run letters (xs ++ ys) = (work.run letters xs).run letters ys := List.foldl_append

theorem run_cons (text : List Char) (rest : List (List Char)) :
    work.run letters (text :: rest) = (work.step letters text).run letters rest := rfl

/-- The depth behind a piece is that of the statement there. -/
theorem depth_core (ahead : Ahead letters before (piece :: rest))
    (depth : work.depth = Quotes.weigh letters {} bracket before) :
    work.depth + bracketDelta letters piece.core =
      Quotes.weigh letters {} bracket (before ++ piece.text) := by
  rw [bracketDelta, (Ahead.core_scan piece).2.2, depth, Quotes.weigh_append, ahead.alike.weigh]

/-- Outside all brackets a break stands behind a comma. -/
theorem comma_of_level (ahead : Ahead letters before (piece :: next :: rest))
    (flat : ¬ 0 < Quotes.weigh letters {} bracket (before ++ piece.text)) :
    endsWithBareComma letters piece.core = true := by
  obtain ⟨front', last, core, final, -, -⟩ := ahead.core_last
  have outside' : endsOutsideQuotes letters piece.core = true := by
    have closed := ahead.here.alike.mode
    rw [ahead.after_text.mode, ← (Ahead.core_scan piece).1] at closed
    rw [endsOutsideQuotes, closed]
    rfl
  obtain ⟨front, mark, text, mem, outside⟩ := ahead.here
  have same : last = mark := by
    rw [text, List.getLast?_append] at final
    exact (Option.some.inj final).symm
  have nested := ahead.whole.nested (before ++ front) ⟨mark :: textOf (next :: rest), by
    rw [textOf_cons piece, text]
    simp⟩
  have closed : ((Quotes.after letters {} (before ++ front)).inside letters mark).1 = false := by
    simp only [List.mem_cons, List.not_mem_nil, or_false] at mem
    obtain rfl | rfl | rfl | rfl := mem <;>
      rw [Quotes.inside_fst (by decide) (by decide) (by decide), outside] <;> rfl
  have level : Quotes.weigh letters {} bracket (before ++ piece.text) =
      Quotes.weigh letters {} bracket (before ++ front) + bracket mark := by
    rw [text, ← List.append_assoc, Quotes.weigh_append, Quotes.weigh_cons, closed,
      if_neg Bool.false_ne_true]
    exact congrArg _ (Int.add_zero _)
  have comma : mark = ',' := by
    simp only [List.mem_cons, List.not_mem_nil, or_false] at mem
    obtain rfl | opens := mem
    · rfl
    · have one : bracket mark = 1 := by obtain rfl | rfl | rfl := opens <;> rfl
      omega
  rw [endsWithBareComma, outside', Bool.and_true, decide_eq_true_eq, core, same, comma,
    List.getLast?_append]
  rfl

theorem step_break (ahead : Ahead letters before (piece :: next :: rest))
    (depth : work.depth = Quotes.weigh letters {} bracket before) :
    work.step letters piece.core = ⟨work.done, some (work.take piece.core),
      Quotes.weigh letters {} bracket (before ++ piece.text)⟩ := by
  have level := depth_core ahead depth
  by_cases deep : 0 < Quotes.weigh letters {} bracket (before ++ piece.text)
  · rw [step_deep (by rwa [level]), level]
  · have nested := ahead.behind.whole.nested (before ++ piece.text) (List.prefix_append _ _)
    rw [step_comma (by rwa [level]) (comma_of_level ahead deep),
      le_antisymm (not_lt.mp deep) nested]

theorem step_last (ahead : Ahead letters before [piece])
    (depth : work.depth = Quotes.weigh letters {} bracket before) :
    work.step letters piece.core =
      ⟨work.done ++ block (work.take piece.core).1 (work.take piece.core).2, none, 0⟩ := by
  have whole := ahead.whole
  rw [textOf_cons, show textOf [] = [] from rfl, List.append_nil] at whole
  have level := (depth_core ahead depth).trans whole.level
  refine step_done (by rw [level]; exact lt_irrefl _) ?_
  obtain ⟨front, last, core, final, -, -⟩ := ahead.core_last
  have other : piece.core.getLast? ≠ some ',' := by
    intro comma
    rw [core, List.getLast?_append] at comma
    apply whole.comma
    rw [List.getLast?_append, final, ← comma]
    rfl
  rw [endsWithBareComma, decide_eq_false other, Bool.false_and]

theorem step_blank {done : List (List Char)} :
    step letters ⟨done, none, 0⟩ [] = ⟨done ++ [[]], none, 0⟩ := rfl

theorem run_idle (done : List (List Char)) (n : Nat) :
    run letters ⟨done, none, 0⟩ (List.replicate n []) =
      ⟨done ++ List.replicate n [], none, 0⟩ := by
  induction n generalizing done with
  | zero => simp [run]
  | succ n ih =>
    rw [List.replicate_succ, run_cons, step_blank, ih, List.append_assoc]
    rfl

theorem run_deep (done : List (List Char)) (held : List Char) (gap n : Nat) {depth : Int}
    (deep : 0 < depth) : run letters ⟨done, some (held, gap), depth⟩ (List.replicate n []) =
      ⟨done, some (held, gap + n), depth⟩ := by
  induction n generalizing gap with
  | zero => rfl
  | succ n ih =>
    have level : depth + bracketDelta letters [] = depth := Int.add_zero depth
    have taken : step letters ⟨done, some (held, gap), depth⟩ [] =
        ⟨done, some (held, gap + 1), depth⟩ := by
      refine (step_deep ?_).trans (congrArg _ level)
      rw [level]
      exact deep
    rw [List.replicate_succ, run_cons, taken, ih, Nat.add_right_comm, Nat.add_assoc]

theorem block_append (held : List Char) (gap n : Nat) :
    block held gap ++ List.replicate n [] = block held (gap + n) := by
  rw [block, block, List.cons_append, ← List.replicate_add]

theorem run_flat (done : List (List Char)) (held : List Char) (gap n : Nat) :
    run letters ⟨done, some (held, gap), 0⟩ (List.replicate (n + 1) []) =
      ⟨done ++ block held (gap + (n + 1)), none, 0⟩ := by
  have closed : step letters ⟨done, some (held, gap), 0⟩ [] =
      ⟨done ++ block held (gap + 1), none, 0⟩ := rfl
  rw [List.replicate_succ, run_cons, closed, run_idle, List.append_assoc, block_append,
    Nat.add_assoc, Nat.add_comm 1]

def held (work : Work) : List Char := (work.current.map Prod.fst).getD []

/-- What is held, where anything is, is held of these texts. -/
def Holds (letters : Char → Bool) (before : List Char) (work : Work) : Prop :=
  work.current = none ∨ Held letters before work.held

theorem take_held (ahead : Ahead letters before (piece :: rest))
    (holds : work.Holds letters before) :
    Held letters (before ++ piece.text) (work.take piece.core).1 ∧
      Quotes.squeeze letters {} (work.take piece.core).1 =
        Quotes.squeeze letters {} work.held ++ Quotes.squeeze letters {} piece.text := by
  obtain ⟨done, current, depth⟩ := work
  cases current with
  | none => exact ⟨ahead.held_core, (Ahead.core_scan piece).2.1⟩
  | some taken =>
    obtain none | holds := holds
    · cases none
    · exact ⟨ahead.held_merge holds, ahead.squeeze_merge holds⟩

/-- The lines that are not empty. -/
def filled (lines : List (List Char)) : Nat := lines.countP fun line => line ≠ []

theorem filled_block {text : List Char} (ne : text ≠ []) (gap : Nat) :
    filled (block text gap) = 1 := by
  have blanks : (List.replicate gap ([] : List Char)).countP (fun line => line ≠ []) = 0 := by
    simp [List.countP_replicate]
  rw [filled, block, List.countP_cons_of_pos (by simpa using ne), blanks]

theorem clean_nil : Clean letters [] := ⟨by simp, rfl, by simp [Quotes.bareText, Quotes.bare]⟩

theorem clean_block {text : List Char} (clean : Clean letters text) (gap : Nat) :
    ∀ line ∈ block text gap, Clean letters line := by
  intro line mem
  obtain rfl | blank := List.mem_cons.mp mem
  · exact clean
  · rw [List.eq_of_mem_replicate blank]
    exact clean_nil

theorem cleaned_blanks {piece : Piece} (laid : piece.Laid) :
    piece.blanks.map (cleaned letters) = List.replicate piece.blanks.length [] := by
  apply List.eq_replicate_iff.mpr
  refine ⟨List.length_map .., ?_⟩
  intro text mem
  obtain ⟨line, blank, rfl⟩ := List.mem_map.mp mem
  exact cleaned_blank (laid.blanks line blank)

theorem cleaned_pieces (ahead : Ahead letters before (piece :: rest)) :
    ((piece :: rest).flatMap Piece.lines).map (cleaned letters) =
      piece.core :: (List.replicate piece.blanks.length [] ++
        (rest.flatMap Piece.lines).map (cleaned letters)) := by
  rw [List.flatMap_cons, List.map_append, Piece.lines, List.map_cons, ahead.cleaned_line,
    cleaned_blanks (ahead.laid piece List.mem_cons_self), List.cons_append]

theorem squeeze_textOf (ahead : Ahead letters before (piece :: next :: rest)) :
    Quotes.squeeze letters {} (textOf (piece :: next :: rest)) =
      Quotes.squeeze letters {} piece.text ++
        Quotes.squeeze letters {} (textOf (next :: rest)) := by
  have alike := ahead.after_text.symm.trans ahead.behind.alike
  rw [textOf_cons, Quotes.squeeze_append, alike.squeeze]

/-- What joining makes of the pieces of a statement: one line where they can be joined, more where
they cannot. -/
theorem run_pieces {pieces : List Piece} (ahead : Ahead letters before pieces)
    (depth : work.depth = Quotes.weigh letters {} bracket before)
    (holds : work.Holds letters before) :
    ∃ lines, work.run letters ((pieces.flatMap Piece.lines).map (cleaned letters)) =
        ⟨work.done ++ lines, none, 0⟩ ∧ (∀ line ∈ lines, Clean letters line) ∧
      (Joinable letters before pieces → ∃ text gap, lines = block text gap ∧ text ≠ [] ∧
        Quotes.squeeze letters {} text =
          Quotes.squeeze letters {} work.held ++ Quotes.squeeze letters {} (textOf pieces)) ∧
      (¬ Joinable letters before pieces → 2 ≤ filled lines) := by
  induction pieces generalizing before work with
  | nil => exact ahead.broken.elim
  | cons piece rest ih =>
    obtain ⟨taken, squeezed⟩ := take_held ahead holds
    rw [cleaned_pieces ahead, run_cons]
    cases rest with
    | nil =>
      refine ⟨block (work.take piece.core).1 ((work.take piece.core).2 + piece.blanks.length), ?_,
        clean_block taken.clean _, fun _ => ⟨_, _, rfl, taken.filled, ?_⟩,
        fun stuck => absurd trivial stuck⟩
      · rw [step_last ahead depth, List.flatMap_nil, List.map_nil, List.append_nil, run_idle,
          List.append_assoc, block_append]
      · rw [squeezed, textOf_cons, show textOf [] = [] from rfl, List.append_nil]
    | cons next rest =>
      rw [step_break ahead depth, run_append, squeeze_textOf ahead, ← List.append_assoc, ← squeezed]
      generalize work.take piece.core = pair at taken ⊢
      obtain ⟨held, gap⟩ := pair
      by_cases deep : 0 < Quotes.weigh letters {} bracket (before ++ piece.text) ∨ piece.blanks = []
      · have blanks : run letters ⟨work.done, some (held, gap),
            Quotes.weigh letters {} bracket (before ++ piece.text)⟩
              (List.replicate piece.blanks.length []) =
            ⟨work.done, some (held, gap + piece.blanks.length),
              Quotes.weigh letters {} bracket (before ++ piece.text)⟩ := by
          obtain deep | none := deep
          · exact run_deep _ _ _ _ deep
          · rw [none]
            rfl
        have joins : Joinable letters before (piece :: next :: rest) ↔
            Joinable letters (before ++ piece.text) (next :: rest) := by
          refine and_iff_right fun level => ?_
          obtain deep | none := deep
          · exact absurd level deep.ne'
          · exact none
        rw [blanks, joins]
        exact ih ahead.behind rfl (.inr taken)
      · rw [not_or, not_lt] at deep
        have nested := ahead.behind.whole.nested (before ++ piece.text) (List.prefix_append _ _)
        have level := le_antisymm deep.1 nested
        have stuck : ¬ Joinable letters before (piece :: next :: rest) := fun joinable =>
          deep.2 (joinable.1 level)
        obtain ⟨n, count⟩ := Nat.exists_eq_succ_of_ne_zero (fun none =>
          deep.2 (List.length_eq_zero_iff.mp none))
        have idle : Holds letters (before ++ piece.text)
            ⟨work.done ++ block held (gap + (n + 1)), none, 0⟩ := .inl rfl
        rw [level, count, run_flat]
        obtain ⟨lines, ran, clean, joined, split⟩ := ih ahead.behind level.symm idle
        refine ⟨block held (gap + (n + 1)) ++ lines, ?_, ?_, fun joinable => absurd joinable stuck,
          fun _ => ?_⟩
        · rw [ran, List.append_assoc]
        · intro line mem
          obtain first | later := List.mem_append.mp mem
          · exact clean_block taken.clean _ line first
          · exact clean line later
        · have more : 1 ≤ filled lines := by
            by_cases joinable : Joinable letters (before ++ piece.text) (next :: rest)
            · obtain ⟨text, gap, rfl, ne, -⟩ := joined joinable
              exact (filled_block ne gap).ge
            · exact Nat.le_of_succ_le (split joinable)
          have one : filled (block held (gap + (n + 1))) = 1 := filled_block taken.filled _
          rw [filled, List.countP_append]
          exact Nat.add_le_add one.ge more

end Work

/-! ### A text -/

theorem plain_pieces {before : List Char} {pieces : List Piece}
    (ahead : Ahead letters before pieces) :
    ∀ raw ∈ pieces.flatMap Piece.lines, (cleaned letters raw).getLast? ≠ some '\\' := by
  induction pieces generalizing before with
  | nil => exact ahead.broken.elim
  | cons piece rest ih =>
    intro raw mem
    rw [List.flatMap_cons, List.mem_append, Piece.lines, List.mem_cons] at mem
    obtain (rfl | blank) | later := mem
    · obtain ⟨front, last, core, -, -, backslash⟩ := ahead.core_last
      rw [ahead.cleaned_line, core, List.getLast?_append]
      exact fun same => backslash (Option.some.inj same)
    · rw [cleaned_blank ((ahead.laid piece List.mem_cons_self).blanks raw blank)]
      exact fun none => by cases none
    · cases rest with
      | nil => cases later
      | cons next rest => exact ih ahead.behind raw later

theorem numberedFrom_block {text : List Char} (ne : text ≠ []) (start gap : Nat) :
    numberedFrom start (Work.block text gap) = [⟨start, text⟩] := by
  rw [Work.block, numberedFrom, if_neg ne,
    numberedFrom_blank fun line mem => List.eq_of_mem_replicate mem]
  rfl

theorem numberedFrom_length (start : Nat) (lines : List (List Char)) :
    (numberedFrom start lines).length = Work.filled lines := by
  induction lines generalizing start with
  | nil => rfl
  | cons line lines ih =>
    rw [numberedFrom, List.length_append, ih, Work.filled, Work.filled, List.countP_cons,
      Nat.add_comm]
    by_cases blank : line = [] <;> simp [blank]

theorem numbered_length (start : Nat) (statements : List (Statement letters)) :
    (numbered start statements).length = statements.length := by
  induction statements generalizing start with
  | nil => rfl
  | cons statement rest ih => exact congrArg (· + 1) (ih _)

/-- A line that was read, up to spacing. -/
def readAs (letters : Char → Bool) (line : SourceLine) : Nat × List Char :=
  (line.number, Quotes.squeeze letters {} line.text)

theorem Work.lines_run (work : Work) (texts : List (List Char)) :
    (work.run letters texts).lines = work.lines + texts.length := by
  induction texts generalizing work with
  | nil => rfl
  | cons text texts ih =>
    rw [Work.run_cons, ih, Work.lines_step, List.length_cons, Nat.add_assoc, Nat.add_comm 1]

/-- What joining makes of statements one after another. -/
theorem run_statements (statements : List (Statement letters)) (done : List (List Char)) :
    ∃ lines, Work.run letters ⟨done, none, 0⟩
        ((statements.flatMap Statement.lines).map (cleaned letters)) =
          ⟨done ++ lines, none, 0⟩ ∧ (∀ line ∈ lines, Clean letters line) ∧
      ((∀ statement ∈ statements, Joinable letters [] statement.pieces) →
        ∀ start, (numberedFrom start lines).map (readAs letters) = numbered start statements) ∧
      statements.length ≤ Work.filled lines ∧
      ((∃ statement ∈ statements, ¬ Joinable letters [] statement.pieces) →
        statements.length < Work.filled lines) := by
  induction statements generalizing done with
  | nil => exact ⟨[], by simp [Work.run], by simp, fun _ _ => rfl, le_rfl, by simp⟩
  | cons statement rest ih =>
    obtain ⟨first, ran, clean, joined, split⟩ :
        ∃ lines, Work.run letters ⟨done, none, 0⟩ _ = ⟨done ++ lines, none, 0⟩ ∧ _ ∧ _ ∧ _ :=
      Work.run_pieces statement.ahead rfl (.inl rfl)
    obtain ⟨later, ran', clean', joined', count, split'⟩ := ih (done ++ first)
    have length : first.length = statement.lines.length := by
      have lines : (Work.run letters ⟨done, none, 0⟩
          (statement.lines.map (cleaned letters))).lines = _ := Work.lines_run _ _
      rw [Statement.lines, ran] at lines
      simpa [Work.lines, Work.opened, Statement.lines] using lines
    have one : 1 ≤ Work.filled first := by
      by_cases joinable : Joinable letters [] statement.pieces
      · obtain ⟨text, gap, rfl, ne, -⟩ := joined joinable
        exact (Work.filled_block ne gap).ge
      · exact Nat.le_of_succ_le (split joinable)
    have total : Work.filled (first ++ later) = Work.filled first + Work.filled later :=
      List.countP_append
    refine ⟨first ++ later, ?_, ?_, ?_, ?_, ?_⟩
    · rw [List.flatMap_cons, List.map_append, Work.run_append, Statement.lines, ran, ran',
        List.append_assoc]
    · intro line mem
      obtain first | later := List.mem_append.mp mem
      · exact clean line first
      · exact clean' line later
    · intro joinable start
      obtain ⟨text, gap, whole, ne, squeezed⟩ := joined (joinable statement List.mem_cons_self)
      have rest := joined' fun statement mem => joinable statement (List.mem_cons_of_mem _ mem)
      rw [numberedFrom_append, List.map_append, rest, length, whole, numberedFrom_block ne,
        List.map_singleton, readAs, squeezed]
      rfl
    · rw [total, List.length_cons]
      omega
    · rintro ⟨stuck, mem, broken⟩
      rw [total, List.length_cons]
      obtain rfl | later := List.mem_cons.mp mem
      · have two := split broken
        omega
      · have more := split' ⟨stuck, later, broken⟩
        omega

/-- The statements of a text are read as they stand, each with the number of its first line, exactly
where no blank line follows a break outside all brackets. -/
theorem joined_lines_iff {source : List Char} {leading : List (List Char)}
    {statements : List (Statement letters)} (blank : ∀ line ∈ leading, Blank line)
    (laid : strLines source = leading ++ statements.flatMap Statement.lines) :
    ((lines letters (joinContinuations letters source)).map (readAs letters) =
          numbered (leading.length + 1) statements ∧
        (joinContinuations letters source).count '\n' = (strLines source).length - 1) ↔
      ∀ statement ∈ statements, Joinable letters [] statement.pieces := by
  have plain : ∀ raw ∈ strLines source, (cleaned letters raw).getLast? ≠ some '\\' := by
    intro raw mem
    rw [laid, List.mem_append, List.mem_flatMap] at mem
    obtain front | ⟨statement, -, mem⟩ := mem
    · rw [cleaned_blank (blank raw front)]
      exact fun none => by cases none
    · exact plain_pieces statement.ahead raw mem
  have blanks : leading.map (cleaned letters) = List.replicate leading.length [] := by
    refine List.eq_replicate_iff.mpr ⟨List.length_map .., ?_⟩
    intro text mem
    obtain ⟨line, front, rfl⟩ := List.mem_map.mp mem
    exact cleaned_blank (blank line front)
  obtain ⟨out, ran, clean, joined, count, split⟩ :=
    run_statements statements (List.replicate leading.length [])
  have ran' : Work.run letters {} ((strLines source).map (cleaned letters)) =
      ⟨List.replicate leading.length [] ++ out, none, 0⟩ := by
    rw [laid, List.map_append, blanks, Work.run_append]
    exact (congrArg (Work.run letters · _) (Work.run_idle [] leading.length)).trans ran
  have text : joinContinuations letters source =
      ['\n'].intercalate (List.replicate leading.length [] ++ out) := by
    rw [joinContinuations_eq plain, ran']
    exact congrArg _ (List.append_nil _)
  have all : ∀ line ∈ List.replicate leading.length [] ++ out, Clean letters line := by
    intro line mem
    obtain front | later := List.mem_append.mp mem
    · rw [List.eq_of_mem_replicate front]
      exact Work.clean_nil
    · exact clean line later
  have length : (List.replicate leading.length [] ++ out).length = (strLines source).length := by
    have lines : (Work.run letters {} ((strLines source).map (cleaned letters))).lines = _ :=
      Work.lines_run _ _
    rw [ran'] at lines
    simpa [Work.lines, Work.opened] using lines
  have read : lines letters (joinContinuations letters source) =
      numberedFrom (leading.length + 1) out := by
    rw [text, lines_intercalate all, numberedFrom_append,
      numberedFrom_blank fun line mem => List.eq_of_mem_replicate mem, List.length_replicate,
      Nat.add_comm]
    rfl
  constructor
  · rintro ⟨same, -⟩
    by_contra some
    have stuck : ∃ statement ∈ statements, ¬ Joinable letters [] statement.pieces := by
      simpa using some
    have more := split stuck
    have fewer := congrArg List.length same
    rw [read, List.length_map, numberedFrom_length, numbered_length] at fewer
    omega
  · intro joinable
    refine ⟨by rw [read, joined joinable], ?_⟩
    rw [text, count_intercalate fun line mem => (all line mem).oneLine, length]

def asciiOnly : Char → Bool := fun _ => false

theorem name_whole : Whole asciiOnly "attribute :name, String".toList where
  oneLine := by decide
  trimmed := rfl
  closed := rfl
  level := rfl
  nested front mem := by
    have each : ∀ front ∈ "attribute :name, String".toList.inits,
        0 ≤ Quotes.weigh asciiOnly {} bracket front := by decide
    exact each front ((List.mem_inits _ _).mpr mem)
  plain := by decide
  comma := by decide
  backslash := by decide

theorem name_break : Break asciiOnly [] "attribute :name,".toList :=
  ⟨"attribute :name".toList, ',', rfl, by decide, rfl⟩

theorem blank_nil : Blank [] := ⟨[], [], rfl, by simp, .inl rfl⟩

/-- The statement broken behind its comma, with blank lines there. -/
def nameAttribute (blanks : List (List Char)) (blank : ∀ line ∈ blanks, Blank line) :
    Statement asciiOnly where
  pieces := [⟨[], "attribute :name,".toList, [], blanks⟩, ⟨"  ".toList, " String".toList, [], []⟩]
  laid piece mem := by
    obtain rfl | mem := List.mem_cons.mp mem
    · exact ⟨by simp, blank_nil, blank⟩
    · obtain rfl := List.mem_singleton.mp mem
      exact ⟨by simp [isWhitespace], blank_nil, by simp⟩
  broken := ⟨name_break, List.cons_ne_nil _ _⟩
  whole := name_whole

theorem name_attribute_joined :
    ((lines asciiOnly (joinContinuations asciiOnly "attribute :name,\n   String\n".toList)).map
          (readAs asciiOnly) = numbered 1 [nameAttribute [] (by simp)] ∧
        (joinContinuations asciiOnly "attribute :name,\n   String\n".toList).count '\n' =
          (strLines "attribute :name,\n   String\n".toList).length - 1) ↔
      ∀ statement ∈ [nameAttribute [] (by simp)], Joinable asciiOnly [] statement.pieces :=
  joined_lines_iff (by simp : ∀ line ∈ ([] : List (List Char)), Blank line) rfl

theorem blank_between : ∀ line ∈ [([] : List Char)], Blank line := by
  simp [blank_nil]

/-- With a blank line behind the comma two lines are read for the one statement. -/
theorem blank_line_splits :
    strLines "attribute :name,\n\n   String\n".toList =
        [nameAttribute [[]] blank_between].flatMap Statement.lines ∧
      lines asciiOnly (joinContinuations asciiOnly "attribute :name,\n\n   String\n".toList) =
        [⟨1, "attribute :name,".toList⟩, ⟨3, "String".toList⟩] ∧
      (lines asciiOnly (joinContinuations asciiOnly "attribute :name,\n\n   String\n".toList)).map
        (readAs asciiOnly) ≠ numbered 1 [nameAttribute [[]] blank_between] := by
  have read : lines asciiOnly
      (joinContinuations asciiOnly "attribute :name,\n\n   String\n".toList) =
        [⟨1, "attribute :name,".toList⟩, ⟨3, "String".toList⟩] := by
    decide
  refine ⟨rfl, read, ?_⟩
  intro same
  have fewer := congrArg List.length same
  rw [List.length_map, numbered_length, read] at fewer
  cases fewer

end Hecks.Parser.Lex
