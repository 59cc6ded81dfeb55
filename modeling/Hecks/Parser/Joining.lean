import Hecks.Lib.Joined
import Hecks.Parser.Lex

/-! Continued lines joined block by block: what the lines of a text are once they are joined, with
no place in the output to keep. -/
namespace Hecks.Parser.Lex

open Canonical (trimmed)
open Text (isWhitespace)

/-- A line without its comment and the blanks around it. -/
def cleaned (letters : Char → Bool) (raw : List Char) : List Char :=
  trimmed (stripComment letters raw)

/-- The lines done, the one that is continued with how many lines it has taken in, and how deep the
brackets stand. -/
structure Work where
  done : List (List Char) := []
  current : Option (List Char × Nat) := none
  depth : Int := 0

namespace Work

variable (letters : Char → Bool)

/-- A line that took others in, and these. -/
def block (held : List Char) (gap : Nat) : List (List Char) := held :: List.replicate gap []

def opened (work : Work) : List (List Char) :=
  match work.current with
  | none => []
  | some (held, gap) => block held gap

def mergeText (held text : List Char) : List Char :=
  if text = [] then held else (if held = [] then held else held ++ [' ']) ++ text

def take (work : Work) (text : List Char) : List Char × Nat :=
  match work.current with
  | none => (text, 0)
  | some (held, gap) => (mergeText held text, gap + 1)

def step (work : Work) (text : List Char) : Work :=
  let depth := work.depth + bracketDelta letters text
  let taken := work.take text
  if 0 < depth then { work with current := some taken, depth }
  else if endsWithBareComma letters text then { work with current := some taken, depth := 0 }
  else { done := work.done ++ block taken.1 taken.2 }

def run (work : Work) (texts : List (List Char)) : Work := texts.foldl (step letters) work

/-- The state of the joining, with this many lines to come. -/
def joining (work : Work) (rest : Nat) : Joining where
  out := work.done ++ work.opened ++ List.replicate rest []
  depth := work.depth
  mergeTarget := work.current.map fun _ => work.done.length

def lines (work : Work) : Nat := (work.done ++ work.opened).length

variable {letters}

theorem modify_front {α : Type} (front back : List α) (x : α) (f : α → α) :
    (front ++ x :: back).modify front.length f = front ++ f x :: back := by
  induction front with
  | nil => rfl
  | cons y front ih => exact congrArg (y :: ·) ih

theorem block_succ (held : List Char) (gap rest : Nat) :
    block held gap ++ List.replicate (rest + 1) [] =
      block held (gap + 1) ++ List.replicate rest [] := by
  rw [block, block, List.cons_append, List.cons_append, ← List.replicate_add, ← List.replicate_add,
    Nat.add_assoc, Nat.add_comm 1]

theorem place_eq (work : Work) (rest : Nat) (text : List Char) :
    (work.joining (rest + 1)).place work.lines text =
      (work.done ++ block (work.take text).1 (work.take text).2 ++ List.replicate rest [],
        work.done.length) := by
  obtain ⟨done, current, depth⟩ := work
  unfold Joining.place
  cases current with
  | none =>
    have extended : Joining.extend (done ++ List.replicate (rest + 1) []) done.length text =
        done ++ text :: List.replicate rest [] := modify_front _ _ _ _
    simp only [joining, opened, lines, List.append_nil, Option.map_none, extended, take, block,
      List.replicate_zero, List.append_assoc, List.singleton_append]
  | some taken =>
    obtain ⟨held, gap⟩ := taken
    have other : done.length ≠ lines ⟨done, some (held, gap), depth⟩ := by
      simp [lines, opened, block]
    have merged : Joining.merge (done ++ block held (gap + 1) ++ List.replicate rest [])
        done.length text =
          done ++ block (mergeText held text) (gap + 1) ++ List.replicate rest [] := by
      unfold Joining.merge mergeText
      by_cases blank : text = []
      · rw [if_pos blank, if_pos blank]
      · rw [if_neg blank, if_neg blank, block, List.append_assoc, List.cons_append, modify_front,
          List.append_assoc]
        rfl
    simp only [joining, opened, Option.map_some, take]
    rw [if_pos other, List.append_assoc, block_succ, ← List.append_assoc, merged]

theorem step_deep {work : Work} {text : List Char}
    (deep : 0 < work.depth + bracketDelta letters text) :
    work.step letters text =
      ⟨work.done, some (work.take text), work.depth + bracketDelta letters text⟩ :=
  if_pos deep

theorem step_comma {work : Work} {text : List Char}
    (flat : ¬ 0 < work.depth + bracketDelta letters text)
    (comma : endsWithBareComma letters text = true) :
    work.step letters text = ⟨work.done, some (work.take text), 0⟩ :=
  (if_neg flat).trans (if_pos comma)

theorem step_done {work : Work} {text : List Char}
    (flat : ¬ 0 < work.depth + bracketDelta letters text)
    (ends : endsWithBareComma letters text = false) :
    work.step letters text =
      ⟨work.done ++ block (work.take text).1 (work.take text).2, none, 0⟩ :=
  (if_neg flat).trans (if_neg (by rw [ends]; exact Bool.false_ne_true))

/-- A line that ends in no backslash is joined to what is held. -/
theorem step_joining (work : Work) (rest : Nat) {raw : List Char}
    (plain : (cleaned letters raw).getLast? ≠ some '\\') :
    (work.joining (rest + 1)).step letters work.lines raw =
      (work.step letters (cleaned letters raw)).joining rest := by
  have bare : endsWithBareBackslash letters (cleaned letters raw) = false := by
    rw [endsWithBareBackslash, decide_eq_false plain, Bool.false_and]
  rw [cleaned] at bare ⊢
  unfold Joining.step
  simp only [bare, Bool.false_eq_true, if_false, place_eq]
  generalize trimmed (stripComment letters raw) = text
  change (if work.depth + bracketDelta letters text ≤ 0 then _ else _) = _
  by_cases deep : 0 < work.depth + bracketDelta letters text
  · rw [if_neg (by omega), step_deep deep]
    rfl
  · rw [if_pos (by omega)]
    have flat : decide ((work.joining (rest + 1)).depth + bracketDelta letters text ≤ 0) = true :=
      decide_eq_true (Int.not_lt.mp deep)
    rw [flat]
    cases comma : endsWithBareComma letters text with
    | true =>
      rw [step_comma deep comma]
      rfl
    | false =>
      rw [step_done deep comma]
      simp [joining, opened]

theorem lines_step (work : Work) (text : List Char) :
    (work.step letters text).lines = work.lines + 1 := by
  have taken : (block (work.take text).1 (work.take text).2).length = work.opened.length + 1 := by
    unfold take opened
    cases work.current <;> simp [block]
  unfold step
  simp only
  split_ifs
  · rw [lines, lines, List.length_append, List.length_append, Nat.add_assoc, ← taken]
    rfl
  · rw [lines, lines, List.length_append, List.length_append, Nat.add_assoc, ← taken]
    rfl
  · rw [lines, lines, List.length_append, List.length_append, List.length_append, taken]
    rfl

/-- The joining of lines that end in no backslash. -/
theorem run_joining (work : Work) {raws : List (List Char)}
    (plain : ∀ raw ∈ raws, (cleaned letters raw).getLast? ≠ some '\\') :
    (work.joining raws.length).steps letters work.lines raws =
      (work.run letters (raws.map (cleaned letters))).joining 0 := by
  induction raws generalizing work with
  | nil => rfl
  | cons raw raws ih =>
    rw [List.length_cons, Joining.steps, step_joining work _ (plain raw List.mem_cons_self),
      ← lines_step work (cleaned letters raw)]
    exact ih _ fun raw mem => plain raw (List.mem_cons_of_mem _ mem)

end Work

theorem joinContinuations_eq {letters : Char → Bool} {source : List Char}
    (plain : ∀ raw ∈ strLines source, (cleaned letters raw).getLast? ≠ some '\\') :
    joinContinuations letters source =
      ['\n'].intercalate ((Work.run letters {} ((strLines source).map (cleaned letters))).done ++
        (Work.run letters {} ((strLines source).map (cleaned letters))).opened) := by
  have joined := congrArg Joining.out (Work.run_joining {} plain)
  generalize Work.run letters {} ((strLines source).map (cleaned letters)) = work at joined ⊢
  exact congrArg ['\n'].intercalate (joined.trans (List.append_nil (work.done ++ work.opened)))

/-! ### The joined lines -/

theorem splitInclusive_line {line : List Char} (oneLine : '\n' ∉ line) :
    splitInclusive line = if line = [] then [] else [line] := by
  induction line with
  | nil => rfl
  | cons ch line ih =>
    rw [List.mem_cons, not_or] at oneLine
    rw [splitInclusive, if_neg (Ne.symm oneLine.1), ih oneLine.2, if_neg (List.cons_ne_nil _ _)]
    cases line <;> rfl

theorem splitInclusive_append {line : List Char} (oneLine : '\n' ∉ line) (rest : List Char) :
    splitInclusive (line ++ '\n' :: rest) = (line ++ ['\n']) :: splitInclusive rest := by
  induction line with
  | nil => rw [List.nil_append, splitInclusive, if_pos rfl, List.nil_append]
  | cons ch line ih =>
    rw [List.mem_cons, not_or] at oneLine
    rw [List.cons_append, splitInclusive, if_neg (Ne.symm oneLine.1), ih oneLine.2]
    rfl

theorem withoutEnding_line {line : List Char} (oneLine : '\n' ∉ line) :
    withoutEnding line = line := by
  unfold withoutEnding
  cases found : line.dropSuffix? ['\n'] with
  | none => rfl
  | some front =>
    obtain ⟨newline, rfl, same⟩ := List.dropSuffix?_eq_some_iff.mp found
    rw [eq_of_beq same] at oneLine
    exact absurd (List.mem_append_right _ List.mem_cons_self) oneLine

theorem withoutEnding_append {line : List Char} (plain : line.getLast? ≠ some '\r') :
    withoutEnding (line ++ ['\n']) = line := by
  have newline : (line ++ ['\n']).dropSuffix? ['\n'] = some line :=
    List.dropSuffix?_eq_some_iff.mpr ⟨['\n'], rfl, beq_self_eq_true _⟩
  unfold withoutEnding
  rw [newline]
  cases found : line.dropSuffix? ['\r'] with
  | none => simp [found]
  | some front =>
    obtain ⟨ending, rfl, same⟩ := List.dropSuffix?_eq_some_iff.mp found
    rw [eq_of_beq same, List.getLast?_append] at plain
    exact absurd rfl plain

/-- Lines put together are split again, but for a last one that is empty. -/
theorem strLines_intercalate {out : List (List Char)}
    (plain : ∀ line ∈ out, '\n' ∉ line ∧ line.getLast? ≠ some '\r') :
    ∃ tail, out = strLines (['\n'].intercalate out) ++ tail ∧ ∀ line ∈ tail, line = [] := by
  induction out with
  | nil => exact ⟨[], rfl, by simp⟩
  | cons line out ih =>
    obtain ⟨oneLine, ending⟩ := plain line List.mem_cons_self
    cases out with
    | nil =>
      have alone : ['\n'].intercalate [line] = line := List.intercalate_singleton
      rw [alone, strLines, splitInclusive_line oneLine]
      split_ifs with blank
      · exact ⟨[line], rfl, by simpa using blank⟩
      · refine ⟨[], ?_, by simp⟩
        rw [List.map_singleton, withoutEnding_line oneLine]
        rfl
    | cons next out =>
      obtain ⟨tail, whole, blank⟩ := ih fun line mem => plain line (List.mem_cons_of_mem _ mem)
      refine ⟨tail, ?_, blank⟩
      rw [Joined.intercalate_cons_cons, strLines, splitInclusive_append oneLine, List.map_cons,
        withoutEnding_append ending, List.cons_append]
      exact congrArg (line :: ·) whole

theorem count_intercalate {out : List (List Char)} (plain : ∀ line ∈ out, '\n' ∉ line) :
    (['\n'].intercalate out).count '\n' = out.length - 1 := by
  induction out with
  | nil => rfl
  | cons line out ih =>
    have none := List.count_eq_zero_of_not_mem (plain line List.mem_cons_self)
    cases out with
    | nil =>
      have alone : ['\n'].intercalate [line] = line := List.intercalate_singleton
      rw [alone, none]
      rfl
    | cons next out =>
      have rest := ih fun line mem => plain line (List.mem_cons_of_mem _ mem)
      rw [Joined.intercalate_cons_cons, List.count_append, none, List.count_cons_self, rest]
      simp only [List.length_cons]
      omega

/-- The lines that are not empty, with their numbers. -/
def numberedFrom (start : Nat) : List (List Char) → List SourceLine
  | [] => []
  | line :: rest => (if line = [] then [] else [⟨start, line⟩]) ++ numberedFrom (start + 1) rest

/-- A line that joining and reading again leave as it is. -/
structure Clean (letters : Char → Bool) (line : List Char) : Prop where
  oneLine : '\n' ∉ line
  trimmed : trimmed line = line
  plain : '#' ∉ Quotes.bareText letters {} line

section

variable {letters : Char → Bool}

theorem find_comment {text : List Char} (plain : '#' ∉ Quotes.bareText letters {} text) :
    (Quotes.bare letters {} 0 text).find? (·.2 = '#') = none := by
  apply List.find?_eq_none.mpr
  rintro ⟨place, ch⟩ mem hash
  rw [decide_eq_true_eq] at hash
  exact plain (List.mem_map.mpr ⟨_, mem, hash⟩)

theorem stripComment_append {text comment : List Char}
    (plain : '#' ∉ Quotes.bareText letters {} text)
    (outside : (Quotes.after letters {} text).mode = none)
    (behind : comment = [] ∨ comment.head? = some '#') :
    stripComment letters (text ++ comment) = text := by
  unfold stripComment
  rw [Quotes.bare_append, List.find?_append, find_comment plain, Option.none_or]
  obtain rfl | start := behind
  · exact List.append_nil text
  · obtain ⟨rest, rfl⟩ := List.head?_eq_some_iff.mp start
    have bare : ((Quotes.after letters {} text).inside letters '#').1 = false := by
      rw [Quotes.inside_fst (by decide) (by decide) (by decide), outside]
      rfl
    rw [Quotes.bare_cons, bare, if_neg Bool.false_ne_true, List.singleton_append,
      List.find?_cons_of_pos rfl]
    simp

theorem stripComment_plain {text : List Char} (plain : '#' ∉ Quotes.bareText letters {} text) :
    stripComment letters text = text := by
  rw [stripComment, find_comment plain]

theorem Clean.cleaned {line : List Char} (clean : Clean letters line) :
    cleaned letters line = line := by
  rw [Lex.cleaned, stripComment_plain clean.plain, clean.trimmed]

theorem Clean.ending {line : List Char} (clean : Clean letters line) :
    line.getLast? ≠ some '\r' := by
  intro last
  have blank := ((trimmed_eq_self_iff line).mp clean.trimmed).2 _ last
  cases blank

theorem filterMap_zipIdx (out : List (List Char)) (start : Nat)
    (clean : ∀ line ∈ out, Clean letters line) :
    (out.zipIdx start).filterMap (fun (raw, idx) =>
      let text := Canonical.trimmed (stripComment letters raw)
      if text = [] then none else some (SourceLine.mk (idx + 1) text)) =
        numberedFrom (start + 1) out := by
  induction out generalizing start with
  | nil => rfl
  | cons line out ih =>
    have same : Canonical.trimmed (stripComment letters line) = line :=
      (clean line List.mem_cons_self).cleaned
    rw [List.zipIdx_cons, List.filterMap_cons, numberedFrom,
      ih (start + 1) fun line mem => clean line (List.mem_cons_of_mem _ mem)]
    simp only [same]
    split_ifs <;> rfl

theorem numberedFrom_append (start : Nat) (out tail : List (List Char)) :
    numberedFrom start (out ++ tail) =
      numberedFrom start out ++ numberedFrom (start + out.length) tail := by
  induction out generalizing start with
  | nil => rfl
  | cons line out ih =>
    rw [List.cons_append, numberedFrom, numberedFrom, ih, List.append_assoc, List.length_cons,
      Nat.add_right_comm, Nat.add_assoc start]

theorem numberedFrom_blank {start : Nat} {tail : List (List Char)}
    (blank : ∀ line ∈ tail, line = []) : numberedFrom start tail = [] := by
  induction tail generalizing start with
  | nil => rfl
  | cons line tail ih =>
    rw [numberedFrom, if_pos (blank line List.mem_cons_self)]
    exact ih fun line mem => blank line (List.mem_cons_of_mem _ mem)

/-- Clean lines put together are read as they are. -/
theorem lines_intercalate {out : List (List Char)} (clean : ∀ line ∈ out, Clean letters line) :
    lines letters (['\n'].intercalate out) = numberedFrom 1 out := by
  obtain ⟨tail, whole, blank⟩ := strLines_intercalate fun line mem =>
    ⟨(clean line mem).oneLine, (clean line mem).ending⟩
  have read : ∀ line ∈ strLines (['\n'].intercalate out), Clean letters line := by
    intro line mem
    apply clean
    rw [whole]
    exact List.mem_append_left _ mem
  have numbers := filterMap_zipIdx (strLines (['\n'].intercalate out)) 0 read
  have split := congrArg (numberedFrom 1) whole
  rw [numberedFrom_append, numberedFrom_blank blank, List.append_nil] at split
  exact numbers.trans split.symm

end

end Hecks.Parser.Lex
