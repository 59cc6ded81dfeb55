import Hecks.Lib.FirstCut
import Hecks.Parser.Lex

/-! What of a line the shape gate keeps: the parts of the call it makes, put together again. -/
namespace Hecks.Parser.Lex

open FirstCut
open Canonical (trimmed)
open Text (isWhitespace)

/-! ### Up to spacing -/

def solid (text : List Char) : List Char := text.filter fun ch => !isWhitespace ch

theorem solid_append (xs ys : List Char) : solid (xs ++ ys) = solid xs ++ solid ys :=
  List.filter_append ..

theorem solid_cons (ch : Char) (cs : List Char) : solid (ch :: cs) = solid [ch] ++ solid cs :=
  solid_append [ch] cs

theorem solid_dropWhile (text : List Char) : solid (text.dropWhile isWhitespace) = solid text := by
  induction text with
  | nil => rfl
  | cons ch cs ih =>
    cases space : isWhitespace ch with
    | true =>
      rw [List.dropWhile_cons_of_pos space, ih, solid, solid,
        List.filter_cons_of_neg (by rw [space]; decide)]
    | false => rw [List.dropWhile_cons_of_neg (by rw [space]; decide)]

theorem solid_reverse (text : List Char) : solid text.reverse = (solid text).reverse :=
  List.filter_reverse ..

theorem solid_trimEnd (text : List Char) : solid (trimEnd text) = solid text := by
  unfold trimEnd List.rdropWhile
  rw [solid_reverse, solid_dropWhile, solid_reverse, List.reverse_reverse]

theorem solid_trimmed (text : List Char) : solid (trimmed text) = solid text := by
  unfold trimmed
  rw [← solid_dropWhile text]
  exact solid_trimEnd _

/-! ### The block of a line -/

section

variable (letters : Char → Bool)

def pairing (opens closes ch : Char) : Int :=
  if ch = opens then 1 else if ch = closes then -1 else 0

/-- A brace behind this text opens a block. -/
def opensBlock (before : List Char) : Bool :=
  endsOutsideQuotes letters before && Quotes.weigh letters {} (pairing '(' ')') before = 0 &&
    !isHashLiteralBrace before

/-- A brace behind this text closes the block the text starts with. -/
def closesBlock (body : List Char) : Bool :=
  endsOutsideQuotes letters body && Quotes.weigh letters {} (pairing '\x7b' '\x7d') body = 1

/-- There is text behind the brace that closes the first block of the line. -/
def Trailing (rest : List Char) : Prop :=
  trailingDo rest = none ∧ ∃ before block body behind,
    Cut (opensBlock letters) '\x7b' rest before block ∧
      Cut (closesBlock letters) '\x7d' ('\x7b' :: block) body behind ∧ solid behind ≠ []

variable {letters}

theorem weigh_snoc (value : Char → Int) (before : List Char) (ch : Char) :
    Quotes.weigh letters {} value (before ++ [ch]) = Quotes.weigh letters {} value before +
      if ((Quotes.after letters {} before).inside letters ch).1 then 0 else value ch := by
  rw [Quotes.weigh_append, Quotes.weigh_cons]
  exact congrArg _ (Int.add_zero _)

theorem after_snoc (before : List Char) (ch : Char) :
    ((Quotes.after letters {} before).inside letters ch).2 =
      Quotes.after letters {} (before ++ [ch]) := by
  rw [Quotes.after_append]
  rfl

theorem endsOutsideQuotes_eq (before : List Char) :
    endsOutsideQuotes letters before = !(Quotes.after letters {} before).mode.isSome := by
  unfold endsOutsideQuotes
  cases (Quotes.after letters {} before).mode <;> rfl

/-- A brace is text exactly in a literal. -/
theorem inside_brace {ch : Char} (brace : ch = '\x7b' ∨ ch = '\x7d') (before : List Char) :
    ((Quotes.after letters {} before).inside letters ch).1 = !endsOutsideQuotes letters before := by
  rw [endsOutsideQuotes_eq, Bool.not_not]
  obtain rfl | rfl := brace <;> exact Quotes.inside_fst (by decide) (by decide) (by decide)

/-- The scan for the opening brace stops where a block opens. -/
theorem findBrace_eq (before cs : List Char) :
    findBrace (before ++ cs) (Quotes.weigh letters {} (pairing '(' ')') before)
        ((Quotes.after letters {} before).bare letters before.length cs) =
      (cutFrom (opensBlock letters) '\x7b' before cs).map (·.1.length) := by
  induction cs generalizing before with
  | nil => rfl
  | cons ch cs ih =>
    have next := ih (before ++ [ch])
    rw [List.append_assoc, List.singleton_append, List.length_append, List.length_singleton,
      weigh_snoc, ← after_snoc] at next
    rw [Quotes.bare_cons, cutFrom]
    cases text : ((Quotes.after letters {} before).inside letters ch).1 with
    | true =>
      rw [text, if_pos rfl, Int.add_zero] at next
      rw [if_pos rfl, List.nil_append, next, if_neg]
      rintro ⟨rfl, opens⟩
      rw [inside_brace (.inl rfl), Bool.not_eq_true'] at text
      rw [opensBlock, text] at opens
      cases opens
    | false =>
      rw [text, if_neg Bool.false_ne_true] at next
      rw [if_neg Bool.false_ne_true, List.singleton_append, findBrace]
      by_cases brace : ch = '\x7b'
      · subst brace
        rw [inside_brace (.inl rfl), Bool.not_eq_false'] at text
        have stops : opensBlock letters before =
            (decide (Quotes.weigh letters {} (pairing '(' ')') before = 0) &&
              !isHashLiteralBrace before) := by
          rw [opensBlock, text, Bool.true_and]
        have level : pairing '(' ')' '\x7b' = 0 := by decide
        rw [level, Int.add_zero] at next
        have first : (before ++ '\x7b' :: cs).take before.length = before := List.take_left
        rw [if_neg (by decide), if_neg (by decide), first, stops]
        by_cases flat : Quotes.weigh letters {} (pairing '(' ')') before = 0
        · cases hash : isHashLiteralBrace before with
          | true => simpa [flat] using next
          | false => simp [flat]
        · simpa [flat] using next
      · have passed : ¬ (ch = '\x7b' ∧ opensBlock letters before = true) := fun h => brace h.1
        have passed' : ¬ (ch = '\x7b' ∧ Quotes.weigh letters {} (pairing '(' ')') before = 0) :=
          fun h => brace h.1
        rw [if_neg passed, if_neg passed', ← next]
        by_cases left : ch = '('
        · subst left
          rfl
        · by_cases right : ch = ')'
          · subst right
            rfl
          · rw [if_neg left, if_neg right, pairing, if_neg left, if_neg right, Int.add_zero]

/-- The scan for the closing brace, inside the block, stops where the block closes. -/
theorem findClosing_eq (before cs : List Char)
    (deep : 1 ≤ Quotes.weigh letters {} (pairing '\x7b' '\x7d') before) :
    findClosing (before ++ cs) (Quotes.weigh letters {} (pairing '\x7b' '\x7d') before) (some 1)
        ((Quotes.after letters {} before).bare letters before.length cs) =
      (cutFrom (closesBlock letters) '\x7d' before cs).map fun (body, behind) =>
        (trimmed (body.drop 1), behind) := by
  induction cs generalizing before with
  | nil => rfl
  | cons ch cs ih =>
    have next := ih (before ++ [ch])
    rw [List.append_assoc, List.singleton_append, List.length_append, List.length_singleton,
      weigh_snoc, ← after_snoc] at next
    rw [Quotes.bare_cons, cutFrom]
    cases text : ((Quotes.after letters {} before).inside letters ch).1 with
    | true =>
      rw [text, if_pos rfl, Int.add_zero] at next
      rw [if_pos rfl, List.nil_append, next deep, if_neg]
      rintro ⟨rfl, closes⟩
      rw [inside_brace (.inr rfl), Bool.not_eq_true'] at text
      rw [closesBlock, text] at closes
      cases closes
    | false =>
      rw [text, if_neg Bool.false_ne_true] at next
      rw [if_neg Bool.false_ne_true, List.singleton_append, findClosing]
      by_cases close : ch = '\x7d'
      · subst close
        rw [inside_brace (.inr rfl), Bool.not_eq_false'] at text
        have level : pairing '\x7b' '\x7d' '\x7d' = -1 := by decide
        have stops : closesBlock letters before =
            decide (Quotes.weigh letters {} (pairing '\x7b' '\x7d') before = 1) := by
          rw [closesBlock, text, Bool.true_and]
        have first : (before ++ '\x7d' :: cs).take before.length = before := List.take_left
        have behind : (before ++ '\x7d' :: cs).drop (before.length + 1) = cs := by
          rw [← List.drop_drop, List.drop_left]
          rfl
        rw [if_neg (by decide), if_pos rfl, first, behind, stops]
        rw [level] at next
        by_cases last : Quotes.weigh letters {} (pairing '\x7b' '\x7d') before = 1
        · simp [last]
        · have inner : Quotes.weigh letters {} (pairing '\x7b' '\x7d') before - 1 ≠ 0 := by omega
          rw [if_neg inner, if_neg (by simp [last])]
          exact next (by omega)
      · have passed : ¬ (ch = '\x7d' ∧ closesBlock letters before = true) := fun h => close h.1
        rw [if_neg passed, if_neg close]
        by_cases brace : ch = '\x7b'
        · subst brace
          have level : pairing '\x7b' '\x7d' '\x7b' = 1 := by decide
          have started : Quotes.weigh letters {} (pairing '\x7b' '\x7d') before ≠ 0 := by omega
          rw [level] at next
          rw [if_pos rfl, if_neg started]
          exact next (by omega)
        · have level : pairing '\x7b' '\x7d' ch = 0 := by
            rw [pairing, if_neg brace, if_neg close]
          rw [level, Int.add_zero] at next
          rw [if_neg brace]
          exact next deep

theorem findTopLevelBrace_eq (rest : List Char) :
    findTopLevelBrace letters rest =
      (cutFrom (opensBlock letters) '\x7b' [] rest).map (·.1.length) :=
  findBrace_eq [] rest

theorem matchingBraceBody_eq (block : List Char) :
    matchingBraceBody letters ('\x7b' :: block) =
      (cutFrom (closesBlock letters) '\x7d' [] ('\x7b' :: block)).map fun (body, behind) =>
        (trimmed (body.drop 1), behind) := by
  have deep : Quotes.weigh letters {} (pairing '\x7b' '\x7d') ['\x7b'] = 1 := rfl
  rw [cutFrom, if_neg (by simp), List.nil_append, ← findClosing_eq ['\x7b'] block (by rw [deep])]
  rfl

theorem splitOpener_closed {rest before block body behind : List Char}
    (none : trailingDo rest = none) (opening : Cut (opensBlock letters) '\x7b' rest before block)
    (closing : Cut (closesBlock letters) '\x7d' ('\x7b' :: block) body behind) :
    splitOpener letters rest = (before, .braceBlock (trimmed (body.drop 1))) := by
  have tail : rest.drop before.length = '\x7b' :: block := by
    rw [opening.whole, List.drop_left]
  have head : rest.take before.length = before := by
    rw [opening.whole, List.take_left]
  unfold splitOpener
  rw [none, findTopLevelBrace_eq, cutFrom_nil_iff.mpr opening]
  dsimp only [Option.map_some]
  rw [tail, head, matchingBraceBody_eq, cutFrom_nil_iff.mpr closing]
  rfl

/-- The ways a line is split: at a trailing `do`, at a block closed on the line or left open by it,
or not at all. -/
theorem splitOpener_cases (letters : Char → Bool) (rest : List Char) :
    (∃ before params, trailingDo rest = some (before, params) ∧
        splitOpener letters rest = (before, .doBlock params)) ∨
      (trailingDo rest = none ∧ ∃ before block body behind,
        Cut (opensBlock letters) '\x7b' rest before block ∧
          Cut (closesBlock letters) '\x7d' ('\x7b' :: block) body behind ∧
            splitOpener letters rest = (before, .braceBlock (trimmed (body.drop 1)))) ∨
      (trailingDo rest = none ∧ ∃ before block,
        Cut (opensBlock letters) '\x7b' rest before block ∧
          (∀ body behind, ¬ Cut (closesBlock letters) '\x7d' ('\x7b' :: block) body behind) ∧
            splitOpener letters rest = (before, .braceBlock ('\x7b' :: block))) ∨
      (trailingDo rest = none ∧
        (∀ before block, ¬ Cut (opensBlock letters) '\x7b' rest before block) ∧
          splitOpener letters rest = (rest, .none)) := by
  cases trailing : trailingDo rest with
  | some found =>
    refine .inl ⟨_, _, rfl, ?_⟩
    rw [splitOpener, trailing]
  | none =>
    refine .inr ?_
    cases opening : cutFrom (opensBlock letters) '\x7b' [] rest with
    | none =>
      refine .inr (.inr ⟨rfl, ?_, ?_⟩)
      · intro before block cut
        rw [cutFrom_nil_iff.mpr cut] at opening
        cases opening
      · rw [splitOpener, trailing, findTopLevelBrace_eq, opening]
        rfl
    | some found =>
      obtain ⟨before, block⟩ := found
      have cut := cutFrom_nil_iff.mp opening
      cases closing : cutFrom (closesBlock letters) '\x7d' [] ('\x7b' :: block) with
      | none =>
        refine .inr (.inl ⟨rfl, before, block, cut, ?_, ?_⟩)
        · intro body behind closed
          rw [cutFrom_nil_iff.mpr closed] at closing
          cases closing
        · have tail : rest.drop before.length = '\x7b' :: block := by
            rw [cut.whole, List.drop_left]
          have head : rest.take before.length = before := by
            rw [cut.whole, List.take_left]
          rw [splitOpener, trailing, findTopLevelBrace_eq, opening]
          dsimp only [Option.map_some]
          rw [tail, head, matchingBraceBody_eq, closing]
          rfl
      | some found =>
        have closed := cutFrom_nil_iff.mp closing
        exact .inl ⟨rfl, before, block, _, _, cut, closed, splitOpener_closed trailing cut closed⟩

end

/-! ### A trailing `do` -/

theorem rfind_eq_some {ch : Char} {text : List Char} {idx : Nat}
    (found : rfind ch text = some idx) : text = text.take idx ++ ch :: text.drop (idx + 1) := by
  obtain ⟨back, place, rfl⟩ := Option.map_eq_some_iff.mp found
  obtain ⟨inside, there, -⟩ := List.findIdx?_eq_some_iff_getElem.mp place
  rw [List.length_reverse] at inside
  rw [List.getElem_reverse, decide_eq_true_eq] at there
  rw [← there, List.cons_getElem_drop_succ, List.take_append_drop]

theorem dropSuffix?_eq_some {text front suffix : List Char}
    (found : text.dropSuffix? suffix = some front) : text = front ++ suffix := by
  obtain ⟨suffix', rfl, same⟩ := List.dropSuffix?_eq_some_iff.mp found
  rw [eq_of_beq same]

/-- How a `do` block is opened. -/
def doText : Option (List Char) → List Char
  | none => "do".toList
  | some params => "do|".toList ++ params ++ ['|']

theorem doWithParams_solid {text before : List Char} {params : Option (List Char)}
    (found : doWithParams text = some (before, params)) :
    solid text = solid before ++ solid (doText params) := by
  simp only [doWithParams, Option.bind_eq_bind, Option.bind_eq_some_iff] at found
  obtain ⟨front, pipe, openPipe, place, before, opened, same⟩ := found
  cases same
  have whole := dropSuffix?_eq_some pipe
  have split := rfind_eq_some place
  have opener : solid (front.take openPipe) = solid before ++ "do".toList := by
    have inside : openPipe ≤ front.length := by
      have longer := congrArg List.length split
      rw [List.length_append, List.length_cons, List.length_take, List.length_drop] at longer
      omega
    have first := congrArg solid (dropSuffix?_eq_some opened)
    rw [solid_trimEnd, whole, List.take_append_of_le_length inside, solid_append] at first
    exact first
  have pipes : solid (doText (some (trimmed (front.drop (openPipe + 1))))) =
      "do".toList ++ (['|'] ++ (solid (front.drop (openPipe + 1)) ++ ['|'])) := by
    rw [doText, solid_append, solid_append, solid_trimmed]
    rfl
  calc solid text = solid (front.take openPipe ++ '|' :: front.drop (openPipe + 1)) ++ ['|'] := by
        rw [← split, whole, solid_append]
        rfl
    _ = solid before ++ "do".toList ++ (['|'] ++ solid (front.drop (openPipe + 1))) ++ ['|'] := by
        rw [solid_append, opener, solid_cons]
        rfl
    _ = solid before ++ solid (doText (some (trimmed (front.drop (openPipe + 1))))) := by
        rw [pipes]
        simp only [List.append_assoc]

theorem trailingDo_solid {rest before : List Char} {params : Option (List Char)}
    (found : trailingDo rest = some (before, params)) :
    solid rest = solid before ++ solid (doText params) := by
  unfold trailingDo at found
  dsimp only at found
  rw [← solid_trimEnd rest]
  cases plain : (trimEnd rest).dropSuffix? " do".toList with
  | some front =>
    rw [plain] at found
    cases found
    rw [dropSuffix?_eq_some plain, solid_append]
    rfl
  | none =>
    cases piped : doWithParams (trimEnd rest) with
    | some pair =>
      rw [plain, piped] at found
      cases found
      exact doWithParams_solid piped
    | none =>
      rw [plain, piped] at found
      obtain ⟨alone, same⟩ := Option.ite_none_right_eq_some.mp found
      cases same
      rw [alone]
      rfl

/-! ### The parts of a line -/

/-- The arguments as they may stand in the line. -/
inductive Wrapped (args : List Char) : List Char → Prop
  | plain : Wrapped args args
  | parens : Wrapped args ('(' :: args ++ [')'])

/-- The opener as it stands in the line: a body that balances was closed there. -/
def openerText (letters : Char → Bool) : Opener → List Char
  | .none => []
  | .doBlock params => doText params
  | .braceBlock body =>
      if Quotes.weigh letters {} (pairing '\x7b' '\x7d') body = 0 then '\x7b' :: body ++ ['\x7d']
      else body

/-- The receiver of a line, where it has one. -/
def receiver (text : List Char) : List Char :=
  if fileReceiverPrefix <+: text then fileReceiverPrefix else []

/-- Up to spacing the line is its receiver, the word, the arguments and the opener. -/
def Accounted (letters : Char → Bool) (text : List Char) (call : Call) : Prop :=
  ∃ args, Wrapped call.args args ∧
    solid text = solid (receiver text ++ call.word ++ args ++ openerText letters call.opener)

/-- One line up to spacing and wrapping parentheses. -/
def SameLine (text text' : List Char) : Prop :=
  ∃ front args back wrapped wrapped', Wrapped args wrapped ∧ Wrapped args wrapped' ∧
    solid text = solid (front ++ wrapped ++ back) ∧
      solid text' = solid (front ++ wrapped' ++ back)

theorem stripBalancedParens_wrapped (text : List Char) :
    ∃ args, Wrapped (stripBalancedParens text) args ∧ solid args = solid text := by
  unfold stripBalancedParens
  dsimp only
  split_ifs with parens
  · exact ⟨text, .plain, rfl⟩
  · refine ⟨_, .parens, ?_⟩
    obtain ⟨first, last, -⟩ := parens
    obtain ⟨tail, rfl⟩ := List.head?_eq_some_iff.mp first
    have closed : tail = tail.dropLast ++ [')'] := by
      obtain ⟨inner, whole⟩ := List.getLast?_eq_some_iff.mp last
      cases inner with
      | nil => cases whole
      | cons c inner =>
        obtain rfl : tail = inner ++ [')'] := (List.cons.inj whole).2
        rw [List.dropLast_concat]
    rw [solid_append, solid_cons, List.drop_one, List.tail_cons, solid_trimmed, ← solid_cons,
      ← solid_append, List.cons_append, ← closed]
  · exact ⟨text, .plain, rfl⟩

theorem receiver_append (text : List Char) : receiver text ++ behindReceiver text = text := by
  unfold receiver behindReceiver
  split_ifs with received
  · obtain ⟨tail, rfl⟩ := received
    rw [List.dropPrefix?_append_of_beq _ (beq_self_eq_true _)]
    rfl
  · cases dropped : text.dropPrefix? fileReceiverPrefix with
    | none => rfl
    | some tail =>
      obtain ⟨front, rfl, same⟩ := List.dropPrefix?_eq_some_iff.mp dropped
      exact absurd ⟨tail, by rw [eq_of_beq same]⟩ received

/-- What a call is made of. -/
theorem classify_call {letters : Char → Bool} {file : String} {line : SourceLine} {call : Call}
    (accepted : classify letters file line = .ok (.call call)) :
    ∃ args, splitOpener letters (behindWord (behindReceiver line.text)) = (args, call.opener) ∧
      call.args = stripBalancedParens (trimmed args) ∧
      solid line.text = solid (receiver line.text) ++ solid call.word ++
        solid (behindWord (behindReceiver line.text)) := by
  have whole := congrArg solid (receiver_append line.text)
  unfold classify at accepted
  generalize behindReceiver line.text = text at accepted whole ⊢
  dsimp only at accepted
  split_ifs at accepted with ends start forbidden
  · cases accepted
  · cases accepted
  · cases accepted
  · cases assigned : findTopLevelAssignment letters (behindWord text) with
    | some place =>
      rw [assigned] at accepted
      cases accepted
    | none =>
      rw [assigned] at accepted
      cases accepted
      refine ⟨_, rfl, rfl, ?_⟩
      dsimp only
      rw [← whole, solid_append, behindWord, solid_dropWhile, List.append_assoc]
      rw [← solid_append (text.take _), List.take_append_drop]

section

variable {letters : Char → Bool} {file : String} {line : SourceLine} {call : Call}

/-- Inside the first block of a line: what stands between its braces. -/
theorem closing_body {block body behind : List Char}
    (closing : Cut (closesBlock letters) '\x7d' ('\x7b' :: block) body behind) :
    body = '\x7b' :: body.drop 1 ∧ block = body.drop 1 ++ '\x7d' :: behind := by
  have whole := closing.whole
  cases body with
  | nil => cases whole
  | cons c inner =>
    obtain ⟨rfl, rest⟩ := List.cons.inj whole
    exact ⟨rfl, rest⟩

theorem solid_closed {rest before block body behind : List Char}
    (opening : Cut (opensBlock letters) '\x7b' rest before block)
    (closing : Cut (closesBlock letters) '\x7d' ('\x7b' :: block) body behind) :
    solid rest = solid before ++ ('\x7b' :: solid (body.drop 1) ++ '\x7d' :: solid behind) := by
  rw [opening.whole, (closing_body closing).2, solid_append, solid_cons, solid_append,
    solid_cons '\x7d']
  rfl

theorem pairing_blank {opens closes ch : Char} (left : isWhitespace opens = false)
    (right : isWhitespace closes = false) (blank : isWhitespace ch = true) :
    pairing opens closes ch = 0 := by
  have other : ch ≠ opens := by
    rintro rfl
    rw [left] at blank
    cases blank
  have other' : ch ≠ closes := by
    rintro rfl
    rw [right] at blank
    cases blank
  rw [pairing, if_neg other, if_neg other']

/-- The body of a block that is closed balances. -/
theorem weigh_body {block body behind : List Char}
    (closing : Cut (closesBlock letters) '\x7d' ('\x7b' :: block) body behind) :
    Quotes.weigh letters {} (pairing '\x7b' '\x7d') (trimmed (body.drop 1)) = 0 := by
  have stops := closing.stops
  rw [closesBlock, Bool.and_eq_true, decide_eq_true_eq, (closing_body closing).1] at stops
  obtain ⟨lead, trail, parts, leads, trails⟩ := trimmed_parts (body.drop 1)
  have level := stops.2
  rw [Quotes.weigh_cons, parts, Quotes.weigh_append, Quotes.weigh_append,
    Quotes.weigh_zero fun ch mem => pairing_blank rfl rfl (leads ch mem),
    Quotes.weigh_zero fun ch mem => pairing_blank rfl rfl (trails ch mem),
    Quotes.after_blanks rfl leads] at level
  have alike : ((Quotes.mk none false none).inside letters '\x7b').2.Alike letters {} :=
    ⟨rfl, rfl, rfl, rfl⟩
  rw [alike.weigh] at level
  have brace : (if ((Quotes.mk none false none).inside letters '\x7b').1 then 0
      else pairing '\x7b' '\x7d' '\x7b') = 1 := rfl
  rw [brace] at level
  omega

/-- Where the braces come to balance a block was closed. -/
theorem exists_closing {before cs : List Char}
    (deep : 1 ≤ Quotes.weigh letters {} (pairing '\x7b' '\x7d') before)
    (level : Quotes.weigh letters {} (pairing '\x7b' '\x7d') (before ++ cs) = 0) :
    ∃ p q, cs = p ++ '\x7d' :: q ∧ closesBlock letters (before ++ p) = true := by
  induction cs generalizing before with
  | nil =>
    rw [List.append_nil] at level
    omega
  | cons ch cs ih =>
    by_cases still : 1 ≤ Quotes.weigh letters {} (pairing '\x7b' '\x7d') (before ++ [ch])
    · obtain ⟨p, q, rfl, closes⟩ := ih still (by rwa [List.append_assoc])
      exact ⟨ch :: p, q, rfl, by rwa [List.append_assoc] at closes⟩
    · rw [weigh_snoc] at still
      cases text : ((Quotes.after letters {} before).inside letters ch).1 with
      | true =>
        rw [text, if_pos rfl] at still
        omega
      | false =>
        rw [text, if_neg Bool.false_ne_true, pairing] at still
        split_ifs at still with left right
        · omega
        · subst right
          rw [inside_brace (.inr rfl), Bool.not_eq_false'] at text
          refine ⟨[], cs, rfl, ?_⟩
          rw [List.append_nil, closesBlock, text, Bool.true_and, decide_eq_true_eq]
          omega
        · omega

/-- What a block left open holds does not balance. -/
theorem weigh_unclosed {block : List Char}
    (unclosed : ∀ body behind, ¬ Cut (closesBlock letters) '\x7d' ('\x7b' :: block) body behind) :
    Quotes.weigh letters {} (pairing '\x7b' '\x7d') ('\x7b' :: block) ≠ 0 := by
  intro level
  have deep : Quotes.weigh letters {} (pairing '\x7b' '\x7d') ['\x7b'] = 1 := rfl
  obtain ⟨p, q, rfl, closes⟩ := exists_closing deep.ge level
  obtain ⟨body, behind, cut⟩ : ∃ body behind,
      Cut (closesBlock letters) '\x7d' ('\x7b' :: p ++ '\x7d' :: q) body behind :=
    exists_cut closes q
  exact unclosed body behind cut

/-- A line without text behind its block is kept whole. -/
theorem accounted_of_not_trailing (accepted : classify letters file line = .ok (.call call))
    (kept : ¬ Trailing letters (behindWord (behindReceiver line.text))) :
    Accounted letters line.text call := by
  obtain ⟨args, split, same, whole⟩ := classify_call accepted
  obtain ⟨args', wrapped, args_solid⟩ := stripBalancedParens_wrapped (trimmed args)
  rw [← same] at wrapped
  rw [solid_trimmed] at args_solid
  refine ⟨args', wrapped, ?_⟩
  have rest : solid (behindWord (behindReceiver line.text)) =
      solid args ++ solid (openerText letters call.opener) := by
    obtain ⟨before, params, trailing, split'⟩ | ⟨none, before, block, body, behind, opening,
        closing, split'⟩ | ⟨none, before, block, opening, unclosed, split'⟩ | ⟨none, -, split'⟩ :=
      splitOpener_cases letters (behindWord (behindReceiver line.text))
    all_goals
      rw [split] at split'
      obtain ⟨rfl, opener⟩ := Prod.mk.inj split'
      rw [opener, openerText]
    · exact trailingDo_solid trailing
    · have blank : solid behind = [] := by
        by_contra text
        exact kept ⟨none, args, block, body, behind, opening, closing, text⟩
      rw [if_pos (weigh_body closing), solid_closed opening closing, blank, solid_append,
        solid_cons, solid_trimmed]
      rfl
    · rw [if_neg (weigh_unclosed unclosed), opening.whole, solid_append]
    · exact (List.append_nil _).symm
  simp only [whole, rest, solid_append, args_solid, List.append_assoc]

theorem brace_ne_paren (args tail tail' : List Char) :
    args ++ '\x7b' :: tail ≠ '(' :: args ++ tail' := by
  induction args with
  | nil =>
    intro same
    cases same
  | cons c args ih =>
    intro same
    obtain ⟨rfl, same⟩ := List.cons.inj same
    exact ih same

theorem Wrapped.solid_eq {args args' : List Char} (wrapped : Wrapped args args') :
    solid args' = solid args ∨ solid args' = '(' :: solid args ++ [')'] := by
  cases wrapped with
  | plain => exact .inl rfl
  | parens =>
    rw [solid_append, solid_cons]
    exact .inr rfl

/-- Text behind the block is in no part of the call. -/
theorem not_accounted_of_trailing (accepted : classify letters file line = .ok (.call call))
    (dropped : Trailing letters (behindWord (behindReceiver line.text))) :
    ¬ Accounted letters line.text call := by
  rintro ⟨args', wrapped', same⟩
  obtain ⟨args, split, stripped, whole⟩ := classify_call accepted
  obtain ⟨_, wrapped, args_solid⟩ := stripBalancedParens_wrapped (trimmed args)
  rw [← stripped] at wrapped
  rw [solid_trimmed] at args_solid
  obtain ⟨none, before, block, body, behind, opening, closing, text⟩ := dropped
  obtain ⟨rfl, braces⟩ := Prod.mk.inj (split.symm.trans (splitOpener_closed none opening closing))
  simp only [whole, solid_append, List.append_assoc, List.append_cancel_left_eq,
    solid_closed opening closing, ← args_solid] at same
  have more : 0 < (solid behind).length := List.length_pos_iff.mpr text
  have less : (solid (openerText letters call.opener)).length ≤
      (solid (body.drop 1)).length + 2 := by
    rw [braces, openerText, ← solid_trimmed (body.drop 1)]
    split_ifs
    · rw [solid_append, solid_cons]
      simp [solid, isWhitespace]
    · exact Nat.le_add_right _ _
  have lengths := congrArg List.length same
  simp only [List.length_append, List.length_cons] at lengths
  obtain plain | parens := wrapped.solid_eq
  · obtain plain' | parens' := wrapped'.solid_eq
    · rw [plain, plain'] at lengths
      omega
    · rw [plain, parens', List.append_assoc] at same
      exact brace_ne_paren _ _ _ same
  · have longer := congrArg List.length parens
    rw [List.length_append, List.length_cons, List.length_singleton] at longer
    obtain plain' | parens' := wrapped'.solid_eq
    · rw [plain'] at lengths
      omega
    · have longer' := congrArg List.length parens'
      rw [List.length_append, List.length_cons, List.length_singleton] at longer'
      omega

/-- A line is kept whole, and no other line with its receiver makes the same call, unless there is
text behind its block. -/
theorem classify_keeps_iff (accepted : classify letters file line = .ok (.call call)) :
    (Accounted letters line.text call ∧ ∀ file' line',
        classify letters file' line' = .ok (.call call) →
          receiver line'.text = receiver line.text → Accounted letters line'.text call →
            SameLine line.text line'.text) ↔
      ¬ Trailing letters (behindWord (behindReceiver line.text)) := by
  constructor
  · rintro ⟨kept, -⟩ dropped
    exact not_accounted_of_trailing accepted dropped kept
  · intro whole
    have kept := accounted_of_not_trailing accepted whole
    refine ⟨kept, ?_⟩
    rintro file' line' - same ⟨args', wrapped', solid'⟩
    obtain ⟨args, wrapped, solid⟩ := kept
    rw [same] at solid'
    exact ⟨_, _, _, args, args', wrapped, wrapped', solid, solid'⟩

end

def asciiLetters : Char → Bool := fun _ => false

def openedLine : SourceLine := ⟨1, "on(\"Deposited\") do |event|".toList⟩

def openedCall : Call :=
  { word := "on".toList, args := "\"Deposited\"".toList, opener := .doBlock (some "event".toList) }

theorem opened_line_kept :
    (Accounted asciiLetters openedLine.text openedCall ∧ ∀ file' line',
        classify asciiLetters file' line' = .ok (.call openedCall) →
          receiver line'.text = receiver openedLine.text →
            Accounted asciiLetters line'.text openedCall →
              SameLine openedLine.text line'.text) ↔
      ¬ Trailing asciiLetters (behindWord (behindReceiver openedLine.text)) :=
  classify_keeps_iff
    (rfl : classify asciiLetters "shop.bluebook" openedLine = .ok (.call openedCall))

def guardedLine : SourceLine := ⟨1, "given { total > 0 } unless vip".toList⟩

def guardedCall : Call :=
  { word := "given".toList, args := [], opener := .braceBlock "total > 0".toList }

/-- The modifier behind the closing brace is dropped: without it the line makes the same call. -/
theorem modifier_dropped :
    classify asciiLetters "shop.bluebook" guardedLine = .ok (.call guardedCall) ∧
      classify asciiLetters "shop.bluebook" ⟨1, "given { total > 0 }".toList⟩ =
        .ok (.call guardedCall) ∧
      ¬ Accounted asciiLetters guardedLine.text guardedCall := by
  have accepted : classify asciiLetters "shop.bluebook" guardedLine = .ok (.call guardedCall) := rfl
  refine ⟨accepted, rfl, not_accounted_of_trailing accepted ⟨rfl, ?_⟩⟩
  refine ⟨[], " total > 0 \x7d unless vip".toList, "\x7b total > 0 ".toList, " unless vip".toList, ?_⟩
  exact ⟨cutFrom_nil_iff.mp rfl, cutFrom_nil_iff.mp rfl, by decide⟩

end Hecks.Parser.Lex
