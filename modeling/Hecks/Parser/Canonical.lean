import Mathlib
import Hecks.Lib.Text

/-! The canonical text of a captured body: whitespace collapsed, `.length` as `.size`, durations
in seconds. Quoted runs pass through untouched. -/

namespace Hecks.Parser.Canonical

open Text (isWhitespace)

/-- `char::is_alphanumeric`, with what Unicode has it answer for digits and blanks. -/
structure Words where
  alphanumeric : Char → Bool
  digit : ∀ {c}, c.isDigit → alphanumeric c = true
  blank : ∀ {c}, isWhitespace c → alphanumeric c = false

/-! ### Quoted runs -/

/-- What a quoted run takes behind its opening quote, and what follows it: a backslash escapes the
next character, and an unterminated run takes the rest. -/
def takeQuoted (quote : Char) : List Char → List Char × List Char
  | [] => ([], [])
  | '\\' :: [] => (['\\'], [])
  | '\\' :: escaped :: cs =>
      ('\\' :: escaped :: (takeQuoted quote cs).1, (takeQuoted quote cs).2)
  | inner :: cs =>
      if inner = quote then ([inner], cs)
      else (inner :: (takeQuoted quote cs).1, (takeQuoted quote cs).2)

theorem takeQuoted_append (quote : Char) (cs : List Char) :
    (takeQuoted quote cs).1 ++ (takeQuoted quote cs).2 = cs := by
  fun_induction takeQuoted quote cs with
  | case1 => rfl
  | case2 => rfl
  | case3 escaped cs ih => simpa using ih
  | case4 cs => rfl
  | case5 inner cs _ _ _ ih => simpa using ih

theorem takeQuoted_length (quote : Char) (cs : List Char) :
    (takeQuoted quote cs).2.length ≤ cs.length := by
  have whole := congrArg List.length (takeQuoted_append quote cs)
  rw [List.length_append] at whole
  omega

/-- `map_outside_strings`, with the unquoted characters read so far. -/
def mapOutsideStrings (transform : List Char → List Char) (plain : List Char) :
    List Char → List Char
  | [] => transform plain
  | ch :: cs =>
      if ch = '"' ∨ ch = '\'' then
        transform plain ++ ch :: (takeQuoted ch cs).1 ++
          mapOutsideStrings transform [] (takeQuoted ch cs).2
      else mapOutsideStrings transform (plain ++ [ch]) cs
termination_by cs => cs.length
decreasing_by
  · have := takeQuoted_length ch cs
    simp only [List.length_cons]
    omega
  · exact Nat.lt_succ_self _

/-! ### The rules -/

/-- `in_run` tells whether the character before was whitespace. -/
def collapseWhitespace (inRun : Bool) : List Char → List Char
  | [] => []
  | ch :: cs =>
      if isWhitespace ch then
        if inRun then collapseWhitespace true cs else ' ' :: collapseWhitespace true cs
      else ch :: collapseWhitespace false cs

section

variable (words : Words)

/-- No identifier character follows. -/
def boundary (after : List Char) : Bool :=
  !after.head?.any fun c => words.alphanumeric c || c = '_'

/-- Replaces `token` with `replacement` unless another identifier character follows it. -/
def replaceWordBoundary (token replacement : List Char) : List Char → List Char
  | [] => []
  | c :: cs =>
      if token.isPrefixOf (c :: cs) && boundary words ((c :: cs).drop token.length) then
        replacement ++ replaceWordBoundary token replacement (cs.drop (token.length - 1))
      else c :: replaceWordBoundary token replacement cs
termination_by cs => cs.length
decreasing_by
  · simp only [List.length_drop, List.length_cons]
    omega
  · exact Nat.lt_succ_self _

end

/-- Matches `(` spaces digits spaces `)`; the digits, and what follows the match. -/
def wholeNumberCall : List Char → Option (List Char × List Char)
  | '(' :: inner =>
      let body := inner.dropWhile isWhitespace
      let digits := body.takeWhile Char.isDigit
      if digits = [] then none
      else
        match (body.dropWhile Char.isDigit).dropWhile isWhitespace with
        | ')' :: rest => some (digits, rest)
        | _ => none
  | _ => none

def digitChar (n : Nat) : Char := Char.ofNat ('0'.toNat + n)

/-- The digits of what is carried out of the last place, the least first. -/
def carried (carry : Nat) : List Char :=
  if carry = 0 then [] else digitChar (carry % 10) :: carried (carry / 10)

/-- The digits of the product, the least first, from digits given in that order. -/
def multiplyFrom (factor : Nat) : List Char → Nat → List Char
  | [], carry => carried carry
  | d :: ds, carry =>
      let v := (d.toNat - '0'.toNat) * factor + carry
      digitChar (v % 10) :: multiplyFrom factor ds (v / 10)

/-- All but one of the zeros in front of nothing else. -/
def stripZeros : List Char → List Char
  | '0' :: c :: cs => stripZeros (c :: cs)
  | cs => cs

/-- Decimal `digits` times `factor`, with no leading zeros. The `u32` of a place holds it: with
the factors of the unit table no carry exceeds the factor. -/
def multiply (digits : List Char) (factor : Nat) : List Char :=
  stripZeros (multiplyFrom factor digits.reverse 0).reverse

/-- The name must not follow a word character, digit, underscore or dot. -/
def preceded (words : Words) (previous : Option Char) : Bool :=
  previous.any fun c => words.alphanumeric c || c = '_' || c = '.'

/-- The call that starts here, if it folds: its digits, and what follows it. -/
def callHere (words : Words) (token : List Char) (previous : Option Char) (text : List Char) :
    Option (List Char × List Char) :=
  if token.isPrefixOf text && !preceded words previous then
    wholeNumberCall (text.drop token.length)
  else none

theorem wholeNumberCall_shorter {text digits rest : List Char}
    (call : wholeNumberCall text = some (digits, rest)) : rest.length < text.length := by
  unfold wholeNumberCall at call
  split at call
  · rename_i inner
    dsimp only at call
    split at call
    · cases call
    · split at call
      · rename_i after closed
        cases call
        have first := (List.dropWhile_suffix (l := inner) isWhitespace).length_le
        have second := (List.dropWhile_suffix (l := inner.dropWhile isWhitespace)
          Char.isDigit).length_le
        have third := (List.dropWhile_suffix
          (l := (inner.dropWhile isWhitespace).dropWhile Char.isDigit) isWhitespace).length_le
        rw [closed, List.length_cons] at third
        rw [List.length_cons]
        omega
      · cases call
  · cases call

theorem callHere_shorter {words : Words} {token text digits rest : List Char}
    {previous : Option Char} (call : callHere words token previous text = some (digits, rest)) :
    rest.length < text.length := by
  unfold callHere at call
  split at call
  · have shorter := wholeNumberCall_shorter call
    rw [List.length_drop] at shorter
    omega
  · cases call

/-- Folds `token(<whole number>)` into the number times `factor`; `previous` is the character of
the text before this place. -/
def scaleCall (words : Words) (token : List Char) (factor : Nat) (previous : Option Char) :
    List Char → List Char
  | [] => []
  | c :: cs =>
      match _h : callHere words token previous (c :: cs) with
      | some (digits, rest) =>
          multiply digits factor ++ scaleCall words token factor (some ')') rest
      | none => c :: scaleCall words token factor (some c) cs
termination_by cs => cs.length
decreasing_by
  · exact callHere_shorter _h
  · exact Nat.lt_succ_self _

/-- The `scale_call` rows, in position order: call name and seconds in a unit. -/
def scaleCalls : List (String × Nat) := [("days", 86400), ("hours", 3600), ("minutes", 60)]

/-- Canonical text of a captured body. -/
def apply (words : Words) (source : String) : String :=
  let collapsed := mapOutsideStrings (collapseWhitespace false) [] source.toList
  let replaced := mapOutsideStrings
    (replaceWordBoundary words ".length".toList ".size".toList) [] collapsed
  let scaled := scaleCalls.foldl (fun text row =>
    mapOutsideStrings (scaleCall words row.1.toList row.2 none) [] text) replaced
  Text.trim (String.ofList scaled)

/-! ### The unquoted runs of a text -/

/-- The runs that `map_outside_strings` transforms. -/
def runs (plain : List Char) : List Char → List (List Char)
  | [] => [plain]
  | ch :: cs =>
      if ch = '"' ∨ ch = '\'' then plain :: runs [] (takeQuoted ch cs).2
      else runs (plain ++ [ch]) cs
termination_by cs => cs.length
decreasing_by
  · have := takeQuoted_length ch cs
    simp only [List.length_cons]
    omega
  · exact Nat.lt_succ_self _

/-- No quote stands in the run. -/
def Quoteless (run : List Char) : Prop := ∀ c ∈ run, ¬ (c = '"' ∨ c = '\'')

variable {f g : List Char → List Char} {plain text : List Char}

theorem mapOutsideStrings_self (same : ∀ run ∈ runs plain text, f run = run) :
    mapOutsideStrings f plain text = plain ++ text := by
  fun_induction mapOutsideStrings f plain text with
  | case1 plain =>
    rw [List.append_nil]
    exact same plain (by rw [runs]; exact List.mem_singleton_self _)
  | case2 plain ch cs quote ih =>
    rw [runs, if_pos quote] at same
    rw [same plain List.mem_cons_self,
      ih fun run mem => same run (List.mem_cons_of_mem _ mem), List.nil_append,
      List.append_assoc, List.cons_append, takeQuoted_append]
  | case3 plain ch cs quote ih =>
    rw [runs, if_neg quote] at same
    rw [ih same, List.append_assoc]
    rfl

theorem mapOutsideStrings_length (shorter : ∀ run ∈ runs plain text, (f run).length ≤ run.length) :
    (mapOutsideStrings f plain text).length ≤ plain.length + text.length := by
  fun_induction mapOutsideStrings f plain text with
  | case1 plain => exact shorter plain (by rw [runs]; exact List.mem_singleton_self _)
  | case2 plain ch cs quote ih =>
    rw [runs, if_pos quote] at shorter
    have first := shorter plain List.mem_cons_self
    have later := ih fun run mem => shorter run (List.mem_cons_of_mem _ mem)
    have whole := congrArg List.length (takeQuoted_append ch cs)
    simp only [List.length_append, List.length_cons, List.length_nil] at later whole ⊢
    omega
  | case3 plain ch cs quote ih =>
    rw [runs, if_neg quote] at shorter
    have later := ih shorter
    simp only [List.length_append, List.length_cons, List.length_nil] at later ⊢
    omega

theorem mapOutsideStrings_lt (shorter : ∀ run ∈ runs plain text, (f run).length ≤ run.length)
    (strict : ∃ run ∈ runs plain text, (f run).length < run.length) :
    (mapOutsideStrings f plain text).length < plain.length + text.length := by
  fun_induction mapOutsideStrings f plain text with
  | case1 plain =>
    obtain ⟨run, mem, less⟩ := strict
    rw [runs, List.mem_singleton] at mem
    subst mem
    exact less
  | case2 plain ch cs quote ih =>
    rw [runs, if_pos quote] at shorter strict
    have first := shorter plain List.mem_cons_self
    have tail : ∀ run ∈ runs [] (takeQuoted ch cs).2, (f run).length ≤ run.length :=
      fun run mem => shorter run (List.mem_cons_of_mem _ mem)
    have later := mapOutsideStrings_length tail
    have whole := congrArg List.length (takeQuoted_append ch cs)
    obtain ⟨run, mem, less⟩ := strict
    simp only [List.length_append, List.length_cons, List.length_nil] at later whole ⊢
    rcases List.mem_cons.mp mem with rfl | mem
    · omega
    · have strictly := ih tail ⟨run, mem, less⟩
      simp only [List.length_nil] at strictly
      omega
  | case3 plain ch cs quote ih =>
    rw [runs, if_neg quote] at shorter strict
    have later := ih shorter strict
    simp only [List.length_append, List.length_cons, List.length_nil] at later ⊢
    omega

theorem takeQuoted_cons (quote : Char) {inner : Char} (plain : inner ≠ '\\') (cs : List Char) :
    takeQuoted quote (inner :: cs) = if inner = quote then ([inner], cs)
      else (inner :: (takeQuoted quote cs).1, (takeQuoted quote cs).2) := by
  rw [takeQuoted]
  · exact fun slash _ => plain slash
  · exact fun _ _ slash _ => plain slash

theorem ne_slash {inner : Char} {cs : List Char} (alone : inner = '\\' → cs = [] → False)
    (before : ∀ escaped rest, inner = '\\' → cs = escaped :: rest → False) : inner ≠ '\\' := by
  intro slash
  cases cs with
  | nil => exact alone slash rfl
  | cons escaped rest => exact before escaped rest slash rfl

/-- A quoted run either takes all there is, or is the same whatever follows it. -/
theorem takeQuoted_closed (quote : Char) (cs : List Char) :
    takeQuoted quote cs = (cs, []) ∨ ∀ rest,
      takeQuoted quote ((takeQuoted quote cs).1 ++ rest) = ((takeQuoted quote cs).1, rest) := by
  fun_induction takeQuoted quote cs with
  | case1 => exact .inl rfl
  | case2 => exact .inl rfl
  | case3 escaped cs ih =>
    rcases ih with whole | closed
    · left
      rw [whole]
    · right
      intro rest
      rw [List.cons_append, List.cons_append, takeQuoted, closed]
  | case4 cs alone before =>
    right
    intro rest
    rw [List.cons_append, takeQuoted_cons quote (ne_slash alone before), if_pos rfl,
      List.nil_append]
  | case5 inner cs alone before other ih =>
    have plain := ne_slash alone before
    rcases ih with whole | closed
    · left
      rw [whole]
    · right
      intro rest
      rw [List.cons_append, takeQuoted_cons quote plain, if_neg other, closed]

theorem runs_append {run : List Char} (quoteless : Quoteless run) (plain text : List Char) :
    runs plain (run ++ text) = runs (plain ++ run) text := by
  induction run generalizing plain with
  | nil => rw [List.nil_append, List.append_nil]
  | cons c run ih =>
    rw [List.cons_append, runs, if_neg (quoteless c List.mem_cons_self),
      ih fun d mem => quoteless d (List.mem_cons_of_mem _ mem), List.append_assoc]
    rfl

theorem mapOutsideStrings_append {run : List Char} (quoteless : Quoteless run)
    (plain text : List Char) :
    mapOutsideStrings g plain (run ++ text) = mapOutsideStrings g (plain ++ run) text := by
  induction run generalizing plain with
  | nil => rw [List.nil_append, List.append_nil]
  | cons c run ih =>
    rw [List.cons_append, mapOutsideStrings, if_neg (quoteless c List.mem_cons_self),
      ih fun d mem => quoteless d (List.mem_cons_of_mem _ mem), List.append_assoc]
    rfl

/-- Behind a quoted run a text goes on as it did before that run was put there. -/
theorem takeQuoted_transformed (quote : Char) (cs : List Char) (empty : f [] = []) :
    takeQuoted quote ((takeQuoted quote cs).1 ++ mapOutsideStrings f [] (takeQuoted quote cs).2) =
      ((takeQuoted quote cs).1, mapOutsideStrings f [] (takeQuoted quote cs).2) := by
  rcases takeQuoted_closed quote cs with whole | closed
  · rw [whole, mapOutsideStrings, empty, List.append_nil, whole]
  · exact closed _

/-- The runs of a transformed text are the transformed runs. -/
theorem runs_mapOutsideStrings (empty : f [] = [])
    (keeps : ∀ run, Quoteless run → Quoteless (f run)) (quoteless : Quoteless plain) :
    runs [] (mapOutsideStrings f plain text) = (runs plain text).map f := by
  fun_induction mapOutsideStrings f plain text with
  | case1 plain =>
    have own := runs_append (keeps plain quoteless) [] []
    rw [List.append_nil, List.nil_append] at own
    rw [own, runs, runs, List.map_singleton]
  | case2 plain ch cs quote ih =>
    rw [List.append_assoc, runs_append (keeps plain quoteless), List.nil_append, List.cons_append,
      runs, if_pos quote, takeQuoted_transformed ch cs empty, runs, if_pos quote, List.map_cons]
    exact congrArg (f plain :: ·) (ih fun c none => absurd none List.not_mem_nil)
  | case3 plain ch cs quote ih =>
    rw [runs, if_neg quote]
    apply ih
    intro c mem
    rcases List.mem_append.mp mem with mem | mem
    · exact quoteless c mem
    · rwa [List.mem_singleton.mp mem]

/-- Two passes over a text are one. -/
theorem mapOutsideStrings_comp (empty : f [] = [])
    (keeps : ∀ run, Quoteless run → Quoteless (f run)) (quoteless : Quoteless plain) :
    mapOutsideStrings g [] (mapOutsideStrings f plain text) =
      mapOutsideStrings (g ∘ f) plain text := by
  fun_induction mapOutsideStrings f plain text with
  | case1 plain =>
    have own := mapOutsideStrings_append (g := g) (keeps plain quoteless) [] []
    rw [List.append_nil, List.nil_append] at own
    rw [own, mapOutsideStrings, mapOutsideStrings]
    rfl
  | case2 plain ch cs quote ih =>
    rw [List.append_assoc, mapOutsideStrings_append (keeps plain quoteless), List.nil_append,
      List.cons_append, mapOutsideStrings, if_pos quote, takeQuoted_transformed ch cs empty,
      ih fun c none => absurd none List.not_mem_nil, mapOutsideStrings, if_pos quote]
    rfl
  | case3 plain ch cs quote ih =>
    rw [mapOutsideStrings, if_neg quote]
    apply ih
    intro c mem
    rcases List.mem_append.mp mem with mem | mem
    · exact quoteless c mem
    · rwa [List.mem_singleton.mp mem]

/-! Blanks at the ends of a text. -/

theorem not_quote_of_blank {c : Char} (blank : isWhitespace c) : ¬ (c = '"' ∨ c = '\'') := by
  rintro (rfl | rfl) <;> exact absurd blank (by decide)

theorem runs_cons_plain (c : Char) (plain text : List Char) :
    ∃ first others, runs plain text = first :: others ∧
      runs (c :: plain) text = (c :: first) :: others := by
  fun_induction runs plain text with
  | case1 plain => exact ⟨plain, [], rfl, by rw [runs]⟩
  | case2 plain ch cs quote ih => exact ⟨plain, _, rfl, by rw [runs, if_pos quote]⟩
  | case3 plain ch cs quote ih =>
    obtain ⟨first, others, same, led⟩ := ih
    exact ⟨first, others, same, by rw [runs, if_neg quote]; exact led⟩

theorem takeQuoted_snoc {quote c : Char} (other : c ≠ quote) (cs : List Char) :
    takeQuoted quote (cs ++ [c]) = ((takeQuoted quote cs).1, (takeQuoted quote cs).2 ++ [c]) ∨
      (takeQuoted quote cs).2 = [] ∧ (takeQuoted quote (cs ++ [c])).2 = [] := by
  fun_induction takeQuoted quote cs with
  | case1 =>
    right
    refine ⟨rfl, ?_⟩
    by_cases slash : c = '\\'
    · subst slash
      rfl
    · rw [List.nil_append, takeQuoted_cons quote slash, if_neg other]
      rfl
  | case2 =>
    right
    exact ⟨rfl, rfl⟩
  | case3 escaped cs ih =>
    rcases ih with same | ⟨none, none'⟩
    · left
      rw [List.cons_append, List.cons_append, takeQuoted, same]
    · right
      exact ⟨none, by rw [List.cons_append, List.cons_append, takeQuoted]; exact none'⟩
  | case4 cs alone before =>
    left
    rw [List.cons_append, takeQuoted_cons quote (ne_slash alone before), if_pos rfl]
  | case5 inner cs alone before differs ih =>
    have plain := ne_slash alone before
    rcases ih with same | ⟨none, none'⟩
    · left
      rw [List.cons_append, takeQuoted_cons quote plain, if_neg differs, same]
    · right
      exact ⟨none, by rw [List.cons_append, takeQuoted_cons quote plain, if_neg differs]; exact none'⟩

/-- A blank put behind a text goes to the end of its last run, or into an unterminated quoted
one. -/
theorem runs_snoc {c : Char} (blank : isWhitespace c) {run : List Char}
    (mem : run ∈ runs plain text) :
    run ∈ runs plain (text ++ [c]) ∨ run ++ [c] ∈ runs plain (text ++ [c]) := by
  fun_induction runs plain text with
  | case1 plain =>
    right
    rw [List.mem_singleton.mp mem, List.nil_append, runs, if_neg (not_quote_of_blank blank), runs]
    exact List.mem_singleton_self _
  | case2 plain ch cs quote ih =>
    rw [List.cons_append, runs, if_pos quote]
    rcases List.mem_cons.mp mem with rfl | mem
    · exact .inl List.mem_cons_self
    · have other : c ≠ ch := by
        rintro rfl
        exact not_quote_of_blank blank quote
      rcases takeQuoted_snoc other cs with same | ⟨none, none'⟩
      · rw [same]
        exact (ih mem).imp (List.mem_cons_of_mem _) (List.mem_cons_of_mem _)
      · rw [none] at mem
        rw [none']
        exact .inl (List.mem_cons_of_mem _ mem)
  | case3 plain ch cs quote ih =>
    rw [List.cons_append, runs, if_neg quote]
    exact ih mem

def trimmed (text : List Char) : List Char :=
  (text.dropWhile isWhitespace).rdropWhile isWhitespace

/-- What holds of the runs, and of a run without a blank at either end when it holds of the run,
holds of the runs of the trimmed text. -/
theorem runs_trimmed {K : List Char → Prop}
    (front : ∀ {c run}, isWhitespace c → K (c :: run) → K run)
    (back : ∀ {c run}, isWhitespace c → K (run ++ [c]) → K run)
    (holds : ∀ run ∈ runs [] text, K run) : ∀ run ∈ runs [] (trimmed text), K run := by
  have led : ∀ run ∈ runs [] (text.dropWhile isWhitespace), K run := by
    induction text with
    | nil => exact holds
    | cons c text ih =>
      by_cases blank : isWhitespace c
      · rw [List.dropWhile_cons_of_pos blank]
        apply ih
        rw [runs, if_neg (not_quote_of_blank blank), List.nil_append] at holds
        obtain ⟨first, others, same, prefixed⟩ := runs_cons_plain c [] text
        rw [prefixed] at holds
        rw [same]
        intro run mem
        rcases List.mem_cons.mp mem with rfl | mem
        · exact front blank (holds _ List.mem_cons_self)
        · exact holds run (List.mem_cons_of_mem _ mem)
      · rwa [List.dropWhile_cons_of_neg blank]
  unfold trimmed
  generalize text.dropWhile isWhitespace = text at led
  induction text using List.reverseRecOn with
  | nil => exact led
  | append_singleton text c ih =>
    by_cases blank : isWhitespace c
    · rw [List.rdropWhile_concat_pos _ _ _ blank]
      apply ih
      intro run mem
      rcases runs_snoc blank mem with same | longer
      · exact led run same
      · exact back blank (led _ longer)
    · rwa [List.rdropWhile_concat_neg _ _ _ blank]

theorem trimmed_trimmed (text : List Char) : trimmed (trimmed text) = trimmed text := by
  have stands : (trimmed text).dropWhile isWhitespace = trimmed text := by
    cases shape : trimmed text with
    | nil => rfl
    | cons c rest =>
      obtain ⟨behind, whole⟩ : trimmed text <+: text.dropWhile isWhitespace :=
        List.rdropWhile_prefix isWhitespace _
      rw [shape, List.cons_append] at whole
      have nonempty : text.dropWhile isWhitespace ≠ [] := by
        rw [← whole]
        exact List.cons_ne_nil _ _
      have first := List.head_dropWhile_not isWhitespace nonempty
      simp only [← whole, List.head_cons] at first
      rw [List.dropWhile_cons_of_neg (by rw [first]; exact Bool.false_ne_true)]
  rw [trimmed, stands]
  exact List.rdropWhile_idempotent _ _

theorem trimmed_length (text : List Char) : (trimmed text).length ≤ text.length := by
  have first := (List.dropWhile_suffix (l := text) isWhitespace).length_le
  have second := (List.rdropWhile_prefix isWhitespace (text.dropWhile isWhitespace)).length_le
  unfold trimmed
  omega

/-! ### Collapsed runs -/

/-- Collapsing leaves the run as it is. -/
def Collapsed (inRun : Bool) (run : List Char) : Prop := collapseWhitespace inRun run = run

theorem collapse_length (inRun : Bool) (run : List Char) :
    (collapseWhitespace inRun run).length ≤ run.length := by
  fun_induction collapseWhitespace inRun run with
  | case1 => exact Nat.le_refl _
  | case2 ch cs blank ih => exact Nat.le_succ_of_le ih
  | case3 inRun ch cs blank _ ih => exact Nat.succ_le_succ ih
  | case4 inRun ch cs plain ih => exact Nat.succ_le_succ ih

theorem collapse_collapse (inRun : Bool) (run : List Char) :
    Collapsed inRun (collapseWhitespace inRun run) := by
  fun_induction collapseWhitespace inRun run with
  | case1 => rfl
  | case2 ch cs blank ih => exact ih
  | case3 inRun ch cs blank open' ih =>
    have closed : inRun = false := by simpa using open'
    subst closed
    exact congrArg (' ' :: ·) ih
  | case4 inRun ch cs plain ih =>
    rw [Collapsed, collapseWhitespace, if_neg plain]
    exact congrArg (ch :: ·) ih

theorem collapsed_plain {inRun : Bool} {c : Char} (plain : ¬ isWhitespace c) (run : List Char) :
    Collapsed inRun (c :: run) ↔ Collapsed false run := by
  rw [Collapsed, collapseWhitespace, if_neg plain, List.cons.injEq]
  exact ⟨fun same => same.2, fun same => ⟨rfl, same⟩⟩

theorem collapsed_blank {inRun : Bool} {c : Char} (blank : isWhitespace c) (run : List Char) :
    Collapsed inRun (c :: run) ↔ inRun = false ∧ c = ' ' ∧ Collapsed true run := by
  rw [Collapsed, collapseWhitespace, if_pos blank]
  cases inRun with
  | true =>
    rw [if_pos rfl]
    constructor
    · intro same
      have long := congrArg List.length same
      have short := collapse_length true run
      rw [List.length_cons] at long
      omega
    · rintro ⟨impossible, -⟩
      cases impossible
  | false =>
    rw [if_neg Bool.false_ne_true, List.cons.injEq]
    constructor
    · rintro ⟨rfl, same⟩
      exact ⟨rfl, rfl, same⟩
    · rintro ⟨-, rfl, same⟩
      exact ⟨rfl, same⟩

/-- A run collapsed behind a blank is collapsed. -/
theorem Collapsed.weaken {inRun : Bool} {run : List Char} (collapsed : Collapsed inRun run) :
    Collapsed false run := by
  cases run with
  | nil => rfl
  | cons c run =>
    by_cases blank : isWhitespace c
    · obtain ⟨rfl, rest⟩ := (collapsed_blank blank run).mp collapsed
      exact collapsed
    · exact (collapsed_plain blank run).mpr ((collapsed_plain blank run).mp collapsed)

theorem Collapsed.tail {inRun : Bool} {c : Char} {run : List Char}
    (collapsed : Collapsed inRun (c :: run)) : Collapsed false run := by
  by_cases blank : isWhitespace c
  · exact ((collapsed_blank blank run).mp collapsed).2.2.weaken
  · exact (collapsed_plain blank run).mp collapsed

theorem Collapsed.behind {inRun : Bool} {front run : List Char}
    (collapsed : Collapsed inRun (front ++ run)) : Collapsed false run := by
  induction front generalizing inRun with
  | nil => exact collapsed.weaken
  | cons c front ih => exact ih collapsed.tail

theorem Collapsed.front {inRun : Bool} {front run : List Char}
    (collapsed : Collapsed inRun (front ++ run)) : Collapsed inRun front := by
  induction front generalizing inRun with
  | nil => rfl
  | cons c front ih =>
    by_cases blank : isWhitespace c
    · obtain ⟨outside, same, rest⟩ := (collapsed_blank blank _).mp collapsed
      exact (collapsed_blank blank _).mpr ⟨outside, same, ih rest⟩
    · exact (collapsed_plain blank _).mpr (ih ((collapsed_plain blank _).mp collapsed))

/-- Something without blanks put in front of a collapsed run. -/
theorem collapsed_append {inRun : Bool} {front run : List Char}
    (solid : ∀ c ∈ front, ¬ isWhitespace c) (nonempty : front ≠ [])
    (collapsed : Collapsed false run) : Collapsed inRun (front ++ run) := by
  induction front generalizing inRun with
  | nil => exact absurd rfl nonempty
  | cons c front ih =>
    apply (collapsed_plain (solid c List.mem_cons_self) _).mpr
    by_cases last : front = []
    · subst last
      exact collapsed
    · exact ih (fun d mem => solid d (List.mem_cons_of_mem _ mem)) last

/-! ### Runs with no token left -/

section

variable {words : Words} {token replacement : List Char}

/-- Replacing leaves nothing to replace: the token stands nowhere in front of a boundary. -/
def Replaced (words : Words) (token run : List Char) : Prop :=
  ∀ before after, run = before ++ token ++ after → boundary words after = false

theorem Replaced.behind {front run : List Char} (replaced : Replaced words token (front ++ run)) :
    Replaced words token run := by
  rintro before after rfl
  exact replaced (front ++ before) after (by simp)

theorem Replaced.front {c : Char} {run : List Char} (blank : isWhitespace c)
    (replaced : Replaced words token (run ++ [c])) : Replaced words token run := by
  rintro before after rfl
  have behind := replaced before (after ++ [c]) (by simp)
  cases after with
  | nil =>
    have underscore : c ≠ '_' := by
      rintro rfl
      exact absurd blank (by decide)
    simp [boundary, words.blank blank, underscore] at behind
  | cons d after => exact behind

theorem replaceWordBoundary_self {run : List Char} (replaced : Replaced words token run) :
    replaceWordBoundary words token replacement run = run := by
  fun_induction replaceWordBoundary words token replacement run with
  | case1 => rfl
  | case2 c cs here ih =>
    rw [Bool.and_eq_true, List.isPrefixOf_iff_prefix] at here
    obtain ⟨⟨after, whole⟩, stands⟩ := here
    rw [← whole, List.drop_left] at stands
    rw [replaced [] after (by rw [List.nil_append, whole])] at stands
    cases stands
  | case3 c cs here ih =>
    have whole : Replaced words token ([c] ++ cs) := replaced
    rw [ih whole.behind]

end

section

variable (words : Words)

def lengthName : List Char := ['l', 'e', 'n', 'g', 't', 'h']

def sizeName : List Char := ['s', 'i', 'z', 'e']

/-- The `replace` row: `.length` as `.size`. -/
def sizeForLength (run : List Char) : List Char :=
  replaceWordBoundary words ('.' :: lengthName) ('.' :: sizeName) run

theorem sizeForLength_nil : sizeForLength words [] = [] := by
  rw [sizeForLength, replaceWordBoundary]

/-- What the row does to a run that is not empty. -/
theorem sizeForLength_cons (c : Char) (cs : List Char) :
    (∃ after, c :: cs = '.' :: lengthName ++ after ∧ boundary words after = true ∧
      sizeForLength words (c :: cs) = '.' :: sizeName ++ sizeForLength words after) ∨
    (∀ after, c :: cs = '.' :: lengthName ++ after → boundary words after = false) ∧
      sizeForLength words (c :: cs) = c :: sizeForLength words cs := by
  by_cases here : ('.' :: lengthName).isPrefixOf (c :: cs) &&
      boundary words ((c :: cs).drop ('.' :: lengthName).length)
  · left
    rw [sizeForLength, replaceWordBoundary, if_pos here]
    rw [Bool.and_eq_true, List.isPrefixOf_iff_prefix] at here
    obtain ⟨⟨after, whole⟩, stands⟩ := here
    rw [← whole, List.drop_left] at stands
    refine ⟨after, whole.symm, stands, ?_⟩
    rw [List.cons_append, List.cons.injEq] at whole
    rw [← whole.2, List.length_cons, Nat.add_sub_cancel, List.drop_left]
    rfl
  · right
    rw [sizeForLength, replaceWordBoundary, if_neg here]
    refine ⟨?_, rfl⟩
    intro after whole
    rw [Bool.and_eq_true, not_and, List.isPrefixOf_iff_prefix, whole, List.drop_left] at here
    exact Bool.eq_false_iff.mpr (here ⟨after, rfl⟩)

/-- By the rows' steps: the run is empty, starts with a `.length` that goes, or keeps its first
character. -/
theorem sizeForLength_induct {motive : List Char → Prop} (nil : motive [])
    (goes : ∀ after, boundary words after = true →
      sizeForLength words ('.' :: lengthName ++ after) =
        '.' :: sizeName ++ sizeForLength words after →
      motive after → motive ('.' :: lengthName ++ after))
    (stays : ∀ c cs,
      (∀ after, c :: cs = '.' :: lengthName ++ after → boundary words after = false) →
      sizeForLength words (c :: cs) = c :: sizeForLength words cs → motive cs → motive (c :: cs))
    (run : List Char) : motive run := by
  induction len : run.length using Nat.strong_induction_on generalizing run with
  | _ n ih =>
    cases run with
    | nil => exact nil
    | cons c cs =>
      rcases sizeForLength_cons words c cs with ⟨after, whole, stands, row⟩ | ⟨none, row⟩
      · rw [whole] at row len ⊢
        refine goes after stands row (ih _ ?_ after rfl)
        rw [← len, List.length_append]
        simp
      · refine stays c cs none row (ih _ ?_ cs rfl)
        rw [← len]
        exact Nat.lt_succ_self _

theorem sizeForLength_head (run : List Char) : (sizeForLength words run).head? = run.head? := by
  induction run using sizeForLength_induct words with
  | nil => rw [sizeForLength_nil]
  | goes after stands row ih =>
    rw [row]
    rfl
  | stays c cs none row ih =>
    rw [row]
    rfl

/-- A stretch of the replaced run without a dot is a stretch of the run. -/
theorem sizeForLength_stretch {stretch rest : List Char} (dotless : '.' ∉ stretch) :
    ∀ {run : List Char}, sizeForLength words run = stretch ++ rest →
      ∃ behind, run = stretch ++ behind ∧ sizeForLength words behind = rest := by
  induction stretch with
  | nil => exact fun same => ⟨_, rfl, same⟩
  | cons d stretch ih =>
    intro run same
    cases run with
    | nil =>
      rw [sizeForLength_nil] at same
      cases same
    | cons c cs =>
      rcases sizeForLength_cons words c cs with ⟨after, whole, stands, row⟩ | ⟨none, row⟩
      · rw [row, List.cons_append, List.cons_append, List.cons.injEq] at same
        rw [← same.1] at dotless
        exact absurd List.mem_cons_self dotless
      · rw [row, List.cons_append, List.cons.injEq] at same
        obtain ⟨rfl, same⟩ := same
        obtain ⟨behind, rfl, rest⟩ := ih (fun mem => dotless (List.mem_cons_of_mem _ mem)) same
        exact ⟨behind, rfl, rest⟩

theorem sizeForLength_replaced (run : List Char) :
    Replaced words ('.' :: lengthName) (sizeForLength words run) := by
  induction run using sizeForLength_induct words with
  | nil =>
    rw [sizeForLength_nil]
    intro before after same
    simp at same
  | goes after stands row ih =>
    rw [row]
    intro before behind same
    -- no dot stands in `.size` but the first, and no `.length` starts there
    have inside : ∃ front, before = '.' :: sizeName ++ front := by
      rcases before with _ | ⟨a, _ | ⟨b, _ | ⟨c, _ | ⟨d, _ | ⟨e, front⟩⟩⟩⟩⟩ <;>
        simp [sizeName, lengthName] at same
      obtain ⟨rfl, rfl, rfl, rfl, rfl, -⟩ := same
      exact ⟨front, rfl⟩
    obtain ⟨front, rfl⟩ := inside
    rw [List.append_assoc, List.append_assoc, List.append_right_inj, ← List.append_assoc] at same
    exact ih front behind same
  | stays c cs none row ih =>
    rw [row]
    intro before behind same
    cases before with
    | nil =>
      rw [List.nil_append, List.cons_append, List.cons.injEq] at same
      obtain ⟨rfl, rest⟩ := same
      obtain ⟨next, rfl, left⟩ := sizeForLength_stretch words (by decide) rest
      have stands := none next rfl
      rwa [boundary, ← left, sizeForLength_head]
    | cons d before =>
      rw [List.cons_append, List.cons_append, List.cons.injEq] at same
      exact ih before behind same.2

theorem size_solid : ∀ c ∈ '.' :: sizeName, ¬ isWhitespace c := by
  simp only [sizeName, List.mem_cons, List.not_mem_nil, or_false]
  rintro c (rfl | rfl | rfl | rfl | rfl) <;> decide

theorem size_quoteless : Quoteless ('.' :: sizeName) := by
  simp only [Quoteless, sizeName, List.mem_cons, List.not_mem_nil, or_false]
  rintro c (rfl | rfl | rfl | rfl | rfl) <;> decide

theorem sizeForLength_collapsed {inRun : Bool} {run : List Char}
    (collapsed : Collapsed inRun run) : Collapsed inRun (sizeForLength words run) := by
  induction run using sizeForLength_induct words generalizing inRun with
  | nil => rwa [sizeForLength_nil]
  | goes after stands row ih =>
    rw [row]
    exact collapsed_append size_solid (List.cons_ne_nil _ _) (ih collapsed.behind)
  | stays c cs none row ih =>
    rw [row]
    by_cases blank : isWhitespace c
    · obtain ⟨outside, same, rest⟩ := (collapsed_blank blank cs).mp collapsed
      exact (collapsed_blank blank _).mpr ⟨outside, same, ih rest⟩
    · exact (collapsed_plain blank _).mpr (ih ((collapsed_plain blank cs).mp collapsed))

theorem sizeForLength_quoteless {run : List Char} (quoteless : Quoteless run) :
    Quoteless (sizeForLength words run) := by
  induction run using sizeForLength_induct words with
  | nil => rwa [sizeForLength_nil]
  | goes after stands row ih =>
    rw [row]
    intro c mem
    rcases List.mem_append.mp mem with mem | mem
    · exact size_quoteless c mem
    · exact ih (fun d behind => quoteless d (List.mem_append_right _ behind)) c mem
  | stays c cs none row ih =>
    rw [row]
    intro d mem
    rcases List.mem_cons.mp mem with rfl | mem
    · exact quoteless d List.mem_cons_self
    · exact ih (fun e behind => quoteless e (List.mem_cons_of_mem _ behind)) d mem

end

theorem collapse_quoteless {run : List Char} (quoteless : Quoteless run) (inRun : Bool) :
    Quoteless (collapseWhitespace inRun run) := by
  induction run generalizing inRun with
  | nil => exact quoteless
  | cons c run ih =>
    have behind := ih fun d mem => quoteless d (List.mem_cons_of_mem _ mem)
    rw [collapseWhitespace]
    split
    · split
      · exact behind true
      · intro d mem
        rcases List.mem_cons.mp mem with rfl | mem
        · decide
        · exact behind true d mem
    · intro d mem
      rcases List.mem_cons.mp mem with rfl | mem
      · exact quoteless d List.mem_cons_self
      · exact behind false d mem

end Hecks.Parser.Canonical
