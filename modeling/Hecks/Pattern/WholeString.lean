import Hecks.Pattern.Parser

/-! A pattern read for the whole value: the text with its line anchors rewritten parses to the
tree with its line anchors replaced. -/
namespace Hecks.Pattern

open Reading (Read)

/-! ### The tree -/

mutual

/-- Line anchors as anchors of the whole text, everything else as it is. -/
def Node.anchored : Node → Node
  | .lineStart => .stringStart
  | .lineEnd => .stringEnd
  | .group inner => .group (anchoredAll inner)
  | .alt branches => .alt (anchoredBranches branches)
  | .repeat node min max => .repeat node.anchored min max
  | .literal c => .literal c
  | .any => .any
  | .class negate ranges => .class negate ranges
  | .stringStart => .stringStart
  | .stringEnd => .stringEnd

def anchoredAll : List Node → List Node
  | [] => []
  | node :: nodes => node.anchored :: anchoredAll nodes

def anchoredBranches : List (List Node) → List (List Node)
  | [] => []
  | branch :: branches => anchoredAll branch :: anchoredBranches branches

end

/-! ### The text, by where it stands -/

/-- The rewriting outside a class. -/
def outside (cs : List Char) : List Char := wholeStringFrom false 0 0 cs

/-- The rewriting inside a class, at its first member or behind it. -/
def inside (first : Bool) (cs : List Char) : List Char :=
  wholeStringFrom true (if first then 0 else 1) 0 cs

/-- What a character outside a class becomes. -/
def anchor : Char → List Char
  | '^' => ['\\', 'A']
  | '$' => ['\\', 'z']
  | other => [other]

theorem wholeStringFrom_cons {c : Char} (plain : c ≠ '\\') (inClass : Bool) (i k : ℕ)
    (cs : List Char) : wholeStringFrom inClass i k (c :: cs) =
      if inClass then c :: wholeStringFrom (c != ']' || i == k) (i + 1) k cs
      else if c = '[' then
        c :: wholeStringFrom true (i + 1) (if cs.head? = some '^' then i + 2 else i + 1) cs
      else anchor c ++ wholeStringFrom false (i + 1) k cs := by
  by_cases start : c = '^'
  · subst start
    rw [wholeStringFrom]
    rfl
  by_cases stop : c = '$'
  · subst stop
    rw [wholeStringFrom]
    rfl
  have same : anchor c = [c] := by
    rw [anchor]
    · exact start
    · exact stop
  rw [wholeStringFrom, same]
  · exact fun slash _ => plain slash
  · exact fun _ _ slash _ => plain slash
  · exact start
  · exact stop

/-- The place counts only inside a class, and there only by how far its first member is. -/
theorem wholeStringFrom_place (n : ℕ) : ∀ {cs : List Char}, cs.length ≤ n →
    ∀ {inClass : Bool} {i k i' k' : ℕ}, (inClass = true → ∀ d, i + d = k ↔ i' + d = k') →
      wholeStringFrom inClass i k cs = wholeStringFrom inClass i' k' cs := by
  induction n with
  | zero =>
    intro cs short inClass i k i' k' _
    rw [List.length_eq_zero_iff.mp (Nat.le_zero.mp short), wholeStringFrom, wholeStringFrom]
  | succ n ih =>
    intro cs short inClass i k i' k' agree
    have further : ∀ m, inClass = true → ∀ d, i + m + d = k ↔ i' + m + d = k' := by
      intro m within d
      rw [Nat.add_assoc, Nat.add_assoc]
      exact agree within (m + d)
    cases cs with
    | nil => rw [wholeStringFrom, wholeStringFrom]
    | cons c rest =>
      have shorter : rest.length ≤ n := by simpa using short
      by_cases slash : c = '\\'
      · subst slash
        cases rest with
        | nil => rw [wholeStringFrom, wholeStringFrom]
        | cons e rest =>
          rw [wholeStringFrom, wholeStringFrom,
            ih (by simp only [List.length_cons] at shorter; omega) (further 2)]
      · rw [wholeStringFrom_cons slash, wholeStringFrom_cons slash]
        cases inClass with
        | true =>
          have here : (i == k) = (i' == k') := by
            rw [Bool.eq_iff_iff, beq_iff_eq, beq_iff_eq]
            exact agree rfl 0
          rw [if_pos rfl, if_pos rfl, here, ih shorter fun _ => further 1 rfl]
        | false =>
          rw [if_neg Bool.false_ne_true, if_neg Bool.false_ne_true]
          by_cases opening : c = '['
          · rw [if_pos opening, if_pos opening]
            congr 1
            apply ih shorter
            intro _ d
            split <;> omega
          · rw [if_neg opening, if_neg opening]
            congr 1
            apply ih shorter
            intro closed
            cases closed

theorem wholeStringFrom_outside (i k : ℕ) (cs : List Char) :
    wholeStringFrom false i k cs = outside cs :=
  wholeStringFrom_place cs.length le_rfl fun closed => absurd closed Bool.false_ne_true

theorem wholeStringFrom_first (i : ℕ) (cs : List Char) :
    wholeStringFrom true i i cs = inside true cs := by
  apply wholeStringFrom_place cs.length le_rfl
  intro _ d
  simp

theorem wholeStringFrom_behind {i k : ℕ} (behind : k < i) (cs : List Char) :
    wholeStringFrom true i k cs = inside false cs := by
  apply wholeStringFrom_place cs.length le_rfl
  intro _ d
  simp
  omega

/-! What the rewriting makes of the next character. -/

theorem outside_slash : outside ['\\'] = ['\\'] := rfl

theorem outside_escape (e : Char) (cs : List Char) :
    outside ('\\' :: e :: cs) = '\\' :: e :: outside cs := by
  rw [outside, wholeStringFrom, wholeStringFrom_outside]

theorem outside_cons {c : Char} (slash : c ≠ '\\') (opening : c ≠ '[') (cs : List Char) :
    outside (c :: cs) = anchor c ++ outside cs := by
  rw [outside, wholeStringFrom_cons slash, if_neg Bool.false_ne_true, if_neg opening,
    wholeStringFrom_outside]

theorem outside_plain {c : Char} (plain : c ∉ ['\\', '[', '^', '$']) (cs : List Char) :
    outside (c :: cs) = c :: outside cs := by
  simp only [List.mem_cons, List.not_mem_nil, or_false, not_or] at plain
  rw [outside_cons plain.1 plain.2.1, anchor]
  · rfl
  · exact plain.2.2.1
  · exact plain.2.2.2

theorem outside_class {cs : List Char} (plain : cs.head? ≠ some '^') :
    outside ('[' :: cs) = '[' :: inside true cs := by
  rw [outside, wholeStringFrom_cons (by decide), if_neg Bool.false_ne_true, if_pos rfl,
    if_neg plain, wholeStringFrom_first]

theorem outside_negated (cs : List Char) :
    outside ('[' :: '^' :: cs) = '[' :: '^' :: inside true cs := by
  rw [outside, wholeStringFrom_cons (by decide), if_neg Bool.false_ne_true, if_pos rfl,
    List.head?_cons, if_pos rfl, wholeStringFrom_cons (by decide), if_pos rfl]
  show '[' :: '^' :: wholeStringFrom true 2 2 cs = _
  rw [wholeStringFrom_first]

theorem inside_nil (first : Bool) : inside first [] = [] := by
  rw [inside, wholeStringFrom]

theorem inside_escape (first : Bool) (e : Char) (cs : List Char) :
    inside first ('\\' :: e :: cs) = '\\' :: e :: inside false cs := by
  rw [inside, wholeStringFrom, wholeStringFrom_behind (by split <;> omega)]

theorem inside_close (cs : List Char) : inside false (']' :: cs) = ']' :: outside cs := by
  rw [inside, wholeStringFrom_cons (by decide), if_pos rfl]
  show ']' :: wholeStringFrom false 2 0 cs = _
  rw [wholeStringFrom_outside]

theorem inside_member {c : Char} {first : Bool} (slash : c ≠ '\\')
    (member : ¬ (c = ']' ∧ first = false)) (cs : List Char) :
    inside first (c :: cs) = c :: inside false cs := by
  have stays : (c != ']' || (if first then 0 else 1) == 0) = true := by
    cases first with
    | true => simp
    | false => simpa using member
  rw [inside, wholeStringFrom_cons slash, if_pos rfl, stays,
    wholeStringFrom_behind (by split <;> omega)]

theorem inside_head (first : Bool) (c : Char) (cs : List Char) :
    (inside first (c :: cs)).head? = some c := by
  by_cases slash : c = '\\'
  · subst slash
    cases cs with
    | nil => rw [inside, wholeStringFrom, List.head?_cons]
    | cons e cs => rw [inside_escape, List.head?_cons]
  · by_cases closing : c = ']' ∧ first = false
    · obtain ⟨rfl, rfl⟩ := closing
      rw [inside_close, List.head?_cons]
    · rw [inside_member slash closing, List.head?_cons]

/-- A character that the rewriting neither writes nor reads anew stands first in both texts or in
neither. -/
theorem outside_head {x : Char} (plain : x ∉ ['\\', '[', '^', '$']) (cs : List Char) :
    (outside cs).head? = some x ↔ cs.head? = some x := by
  simp only [List.mem_cons, List.not_mem_nil, or_false, not_or] at plain
  obtain ⟨slash, opening, start, stop⟩ := plain
  cases cs with
  | nil => rfl
  | cons c cs =>
    by_cases c_slash : c = '\\'
    · subst c_slash
      cases cs with
      | nil => rw [outside_slash]
      | cons e cs => rw [outside_escape, List.head?_cons, List.head?_cons]
    by_cases c_opening : c = '['
    · subst c_opening
      by_cases negated : cs.head? = some '^'
      · obtain ⟨rest, rfl⟩ := List.head?_eq_some_iff.mp negated
        rw [outside_negated, List.head?_cons, List.head?_cons]
      · rw [outside_class negated, List.head?_cons, List.head?_cons]
    rw [outside_cons c_slash c_opening]
    by_cases c_start : c = '^'
    · subst c_start
      simp [anchor, Ne.symm slash, Ne.symm start]
    by_cases c_stop : c = '$'
    · subst c_stop
      simp [anchor, Ne.symm slash, Ne.symm stop]
    have same : anchor c = [c] := by
      rw [anchor]
      · exact c_start
      · exact c_stop
    rw [same]
    rfl

/-! ### The parser on the rewritten text -/

/-- A reader's answer, without the bound on what it leaves. -/
def view {α : Type} {n : ℕ} (x : Option (Read α n)) : Option (α × List Char) :=
  x.map fun r => (r.value, r.rest)

theorem view_eq_some {α : Type} {n : ℕ} {x : Option (Read α n)} {v : α} {rest : List Char} :
    view x = some (v, rest) ↔ ∃ within, x = some ⟨v, rest, within⟩ := by
  unfold view
  cases x with
  | none => simp
  | some r =>
    obtain ⟨value, left, within⟩ := r
    constructor
    · intro same
      cases same
      exact ⟨within, rfl⟩
    · rintro ⟨within', same⟩
      cases same
      rfl

/-! Classes. -/

theorem view_classChar_slash (cs : List Char) :
    view (classChar '\\' cs) = cs.head?.map fun e => (escapeChar e, cs.tail) := by
  cases cs <;> rfl

theorem view_classChar {c : Char} (plain : c ≠ '\\') (cs : List Char) :
    view (classChar c cs) = some (c, cs) := by
  unfold classChar
  rw [if_neg plain]
  rfl

theorem classChar_inside {first : Bool} {c lo : Char} {cs rest : List Char}
    (member : ¬ (c = ']' ∧ first = false)) (read : view (classChar c cs) = some (lo, rest)) :
    ∃ tail, inside first (c :: cs) = c :: tail ∧
      view (classChar c tail) = some (lo, inside false rest) := by
  by_cases slash : c = '\\'
  · subst slash
    rw [view_classChar_slash] at read
    cases cs with
    | nil => cases read
    | cons e cs =>
      cases read
      exact ⟨_, inside_escape first e cs, by rw [view_classChar_slash]; rfl⟩
  · rw [view_classChar slash] at read
    cases read
    exact ⟨_, inside_member slash member cs, view_classChar slash _⟩

theorem view_rangeEnd_alone {lo : Char} {cs : List Char}
    (alone : cs.head? = some '-' → cs.tail = [] ∨ cs.tail.head? = some ']') :
    view (rangeEnd lo cs) = some ((lo, lo), cs) := by
  cases cs with
  | nil => rfl
  | cons c cs =>
    by_cases dash : c = '-'
    · subst dash
      rcases alone rfl with none | closing
      · rw [List.tail_cons] at none
        subst none
        rfl
      · obtain ⟨rest, same⟩ := List.head?_eq_some_iff.mp closing
        rw [List.tail_cons] at same
        subst same
        rfl
    · rw [rangeEnd]
      · rfl
      · intro hi rest same
        exact dash (List.cons.inj same).1

theorem view_rangeEnd {lo hi : Char} (open' : hi ≠ ']') (cs : List Char) :
    view (rangeEnd lo ('-' :: hi :: cs)) =
      (view (classChar hi cs)).map fun r => ((lo, r.1), r.2) := by
  rw [rangeEnd, if_neg open', view, view, Option.map_map, Option.map_map]
  rfl

theorem rangeEnd_inside {lo : Char} {range : Char × Char} {cs rest : List Char}
    (read : view (rangeEnd lo cs) = some (range, rest)) :
    view (rangeEnd lo (inside false cs)) = some (range, inside false rest) := by
  by_cases ranged : ∃ hi tail, cs = '-' :: hi :: tail ∧ hi ≠ ']'
  · obtain ⟨hi, tail, rfl, opened⟩ := ranged
    rw [view_rangeEnd opened] at read
    obtain ⟨⟨top, left⟩, upper, same⟩ := Option.map_eq_some_iff.mp read
    cases same
    have member : ¬ (hi = ']' ∧ false = false) := fun close => opened close.1
    obtain ⟨tail', rewritten, upper'⟩ := classChar_inside member upper
    rw [inside_member (by decide) (by decide), rewritten, view_rangeEnd opened, upper']
    rfl
  · have alone : cs.head? = some '-' → cs.tail = [] ∨ cs.tail.head? = some ']' := by
      intro dash
      obtain ⟨tail, rfl⟩ := List.head?_eq_some_iff.mp dash
      cases tail with
      | nil => exact .inl rfl
      | cons hi tail =>
        right
        by_contra opened
        exact ranged ⟨hi, tail, rfl, fun same => opened (by rw [same]; rfl)⟩
    rw [view_rangeEnd_alone alone] at read
    cases read
    apply view_rangeEnd_alone
    intro dash
    cases cs with
    | nil =>
      rw [inside_nil] at dash
      cases dash
    | cons c tail =>
      rw [inside_head, Option.some.injEq] at dash
      subst dash
      rw [inside_member (by decide) (by decide)]
      rcases alone rfl with none | closing
      · rw [List.tail_cons] at none
        subst none
        exact .inl (inside_nil false)
      · obtain ⟨left, same⟩ := List.head?_eq_some_iff.mp closing
        rw [List.tail_cons] at same
        subst same
        right
        exact inside_head _ _ _

theorem view_classRanges_close (cs : List Char) :
    view (classRanges false (']' :: cs)) = some ([], cs) := by
  rw [classRanges, if_pos ⟨rfl, rfl⟩]
  rfl

theorem view_classRanges {first : Bool} {c : Char} (member : ¬ (c = ']' ∧ first = false))
    (cs : List Char) : view (classRanges first (c :: cs)) =
      (view (classChar c cs)).bind fun lo => (view (rangeEnd lo.1 lo.2)).bind fun range =>
        (view (classRanges false range.2)).map fun ranges => (range.1 :: ranges.1, ranges.2) := by
  rw [classRanges, if_neg member]
  cases classChar c cs with
  | none => rfl
  | some lo =>
    obtain ⟨lo, behind, within⟩ := lo
    have seen : view (some ⟨lo, behind, within⟩ : Option (Read Char cs.length)) =
        some (lo, behind) := rfl
    dsimp only
    rw [seen, Option.bind_some]
    cases rangeEnd lo behind with
    | none => rfl
    | some range =>
      show view (Option.map _ (classRanges false range.rest)) =
        (view (classRanges false range.rest)).map _
      rw [view, view, Option.map_map, Option.map_map]
      rfl

theorem classRanges_inside (n : ℕ) : ∀ {first : Bool} {cs rest : List Char}
    {ranges : List (Char × Char)}, cs.length ≤ n →
      view (classRanges first cs) = some (ranges, rest) →
        view (classRanges first (inside first cs)) = some (ranges, outside rest) := by
  induction n with
  | zero =>
    intro first cs rest ranges short read
    rw [List.length_eq_zero_iff.mp (Nat.le_zero.mp short), classRanges] at read
    cases read
  | succ n ih =>
    intro first cs rest ranges short read
    cases cs with
    | nil =>
      rw [classRanges] at read
      cases read
    | cons c cs =>
      by_cases closing : c = ']' ∧ first = false
      · obtain ⟨rfl, rfl⟩ := closing
        rw [view_classRanges_close] at read
        cases read
        rw [inside_close, view_classRanges_close]
      · rw [view_classRanges closing] at read
        obtain ⟨⟨lo, behind⟩, member, read⟩ := Option.bind_eq_some_iff.mp read
        obtain ⟨⟨range, left⟩, upper, read⟩ := Option.bind_eq_some_iff.mp read
        obtain ⟨⟨others, last⟩, tail, same⟩ := Option.map_eq_some_iff.mp read
        cases same
        obtain ⟨cs', rewritten, member'⟩ := classChar_inside closing member
        have shorter : left.length ≤ n := by
          obtain ⟨within, -⟩ := view_eq_some.mp member
          obtain ⟨within', -⟩ := view_eq_some.mp upper
          simp only [List.length_cons] at short within'
          omega
        rw [rewritten, view_classRanges closing, member', Option.bind_some,
          rangeEnd_inside upper, Option.bind_some, ih shorter tail]
        rfl

theorem view_parseClass_negated (cs : List Char) : view (parseClass ('^' :: cs)) =
    (view (classRanges true cs)).map fun r => (.class true r.1, r.2) := by
  rw [parseClass, view, view, Option.map_map, Option.map_map]
  rfl

theorem view_parseClass {cs : List Char} (plain : cs.head? ≠ some '^') :
    view (parseClass cs) = (view (classRanges true cs)).map fun r => (.class false r.1, r.2) := by
  rw [parseClass, view, view, Option.map_map, Option.map_map]
  · rfl
  · rintro rest rfl
    exact plain rfl

theorem parseClass_outside {cs rest : List Char} {node : Node}
    (read : view (parseClass cs) = some (node, rest)) :
    ∃ tail, outside ('[' :: cs) = '[' :: tail ∧
      view (parseClass tail) = some (node.anchored, outside rest) := by
  by_cases negated : cs.head? = some '^'
  · obtain ⟨behind, rfl⟩ := List.head?_eq_some_iff.mp negated
    rw [view_parseClass_negated] at read
    obtain ⟨⟨ranges, left⟩, members, same⟩ := Option.map_eq_some_iff.mp read
    cases same
    have members' := classRanges_inside behind.length le_rfl members
    exact ⟨_, outside_negated behind, by rw [view_parseClass_negated, members']; rfl⟩
  · rw [view_parseClass negated] at read
    obtain ⟨⟨ranges, left⟩, members, same⟩ := Option.map_eq_some_iff.mp read
    cases same
    have members' := classRanges_inside cs.length le_rfl members
    have plain : (inside true cs).head? ≠ some '^' := by
      cases cs with
      | nil => rw [inside_nil]; simp
      | cons c cs => rwa [inside_head]
    exact ⟨_, outside_class negated, by rw [view_parseClass plain, members']; rfl⟩

/-! Quantifiers. -/

theorem digit_plain {c : Char} (digit : (Text.digit? c).isSome) : c ∉ ['\\', '[', '^', '$'] := by
  intro special
  simp only [List.mem_cons, List.not_mem_nil, or_false] at special
  rcases special with rfl | rfl | rfl | rfl <;> exact absurd digit (by decide)

/-- Characters in front of a text that the rewriting leaves, and what is behind them. -/
theorem run_outside {p : Char → Bool} (plain : ∀ c, p c → c ∉ ['\\', '[', '^', '$'])
    (cs : List Char) :
    (outside cs).takeWhile p = cs.takeWhile p ∧
      (outside cs).dropWhile p = outside (cs.dropWhile p) := by
  induction cs with
  | nil => exact ⟨rfl, rfl⟩
  | cons c cs ih =>
    by_cases holds : p c
    · rw [outside_plain (plain c holds), List.takeWhile_cons_of_pos holds,
        List.takeWhile_cons_of_pos holds, List.dropWhile_cons_of_pos holds,
        List.dropWhile_cons_of_pos holds, ih.1, ih.2]
      exact ⟨rfl, rfl⟩
    · rw [List.takeWhile_cons_of_neg holds, List.dropWhile_cons_of_neg holds]
      have stands : ∀ x, (outside (c :: cs)).head? = some x → ¬ p x := by
        intro x head is_x
        rw [outside_head (plain x is_x), List.head?_cons, Option.some.injEq] at head
        subst head
        exact holds is_x
      cases shape : outside (c :: cs) with
      | nil => exact ⟨rfl, rfl⟩
      | cons x xs =>
        have stops := stands x (by rw [shape]; rfl)
        rw [List.takeWhile_cons_of_neg stops, List.dropWhile_cons_of_neg stops]
        exact ⟨rfl, rfl⟩

/-- What a reader of a plain text answers, on the rewritten text. -/
def anchoredRest {α : Type} (answer : Option (α × List Char)) : Option (α × List Char) :=
  answer.map fun r => (r.1, outside r.2)

theorem parseDigits_outside (usizeMax : ℕ) (cs : List Char) :
    view (parseDigits usizeMax (outside cs)) = anchoredRest (view (parseDigits usizeMax cs)) := by
  unfold parseDigits
  dsimp only
  have digits := run_outside (fun _ => digit_plain) cs
  rw [digits.1]
  split
  · rfl
  · cases Text.digitsValue (cs.takeWhile fun c => (Text.digit? c).isSome) 0 with
    | none => rfl
    | some n =>
      rw [Option.bind_some, Option.bind_some]
      split
      · exact congrArg (fun rest => some (n, rest)) digits.2
      · rfl

theorem view_closeBrace (bounds : ℕ × Option ℕ) (cs : List Char) :
    view (closeBrace bounds cs) = if cs.head? = some '}' then some (bounds, cs.tail) else none := by
  cases cs with
  | nil => rfl
  | cons c cs =>
    by_cases brace : c = '}'
    · subst brace
      rfl
    · rw [closeBrace, if_neg (by simpa using brace)]
      · rfl
      · intro rest same
        exact brace (List.cons.inj same).1

theorem closeBrace_outside (bounds : ℕ × Option ℕ) (cs : List Char) :
    view (closeBrace bounds (outside cs)) = anchoredRest (view (closeBrace bounds cs)) := by
  rw [view_closeBrace, view_closeBrace]
  by_cases brace : cs.head? = some '}'
  · obtain ⟨rest, rfl⟩ := List.head?_eq_some_iff.mp brace
    rw [outside_plain (by decide)]
    rfl
  · rw [if_neg brace, if_neg ((outside_head (by decide) cs).not.mpr brace)]
    rfl

/-- The upper bound behind a comma that no `}` follows. -/
theorem view_upperBound_comma (usizeMax min : ℕ) {cs : List Char} (bound : cs.head? ≠ some '}') :
    view (upperBound usizeMax min (',' :: cs)) =
      (view (parseDigits usizeMax cs)).bind fun max =>
        view (closeBrace (min, some max.1) max.2) := by
  rw [upperBound]
  · cases parseDigits usizeMax cs with
    | none => rfl
    | some max =>
      show view (Option.map _ (closeBrace (min, some max.value) max.rest)) =
        view (closeBrace (min, some max.value) max.rest)
      rw [view, view, Option.map_map]
      rfl
  · rintro rest rfl
    exact bound rfl

theorem upperBound_outside (usizeMax min : ℕ) (cs : List Char) :
    view (upperBound usizeMax min (outside cs)) =
      anchoredRest (view (upperBound usizeMax min cs)) := by
  by_cases brace : cs.head? = some '}'
  · obtain ⟨rest, rfl⟩ := List.head?_eq_some_iff.mp brace
    rw [outside_plain (by decide)]
    rfl
  by_cases comma : cs.head? = some ','
  · obtain ⟨rest, rfl⟩ := List.head?_eq_some_iff.mp comma
    rw [outside_plain (by decide)]
    by_cases unbounded : rest.head? = some '}'
    · obtain ⟨rest, rfl⟩ := List.head?_eq_some_iff.mp unbounded
      rw [outside_plain (by decide)]
      rfl
    · rw [view_upperBound_comma usizeMax min unbounded,
        view_upperBound_comma usizeMax min ((outside_head (by decide) rest).not.mpr unbounded),
        parseDigits_outside]
      cases view (parseDigits usizeMax rest) with
      | none => rfl
      | some max => exact closeBrace_outside _ _
  · have neither : ∀ {cs : List Char}, cs.head? ≠ some '}' → cs.head? ≠ some ',' →
        view (upperBound usizeMax min cs) = none := by
      intro cs brace comma
      rw [upperBound]
      · rfl
      · rintro rest rfl
        exact brace rfl
      · rintro rest rfl
        exact comma rfl
      · rintro rest rfl
        exact comma rfl
    rw [neither ((outside_head (by decide) cs).not.mpr brace)
      ((outside_head (by decide) cs).not.mpr comma), neither brace comma]
    rfl

theorem parseBoundedRepeat_outside (usizeMax : ℕ) (cs : List Char) :
    view (parseBoundedRepeat usizeMax (outside cs)) =
      anchoredRest (view (parseBoundedRepeat usizeMax cs)) := by
  have reads : ∀ cs, view (parseBoundedRepeat usizeMax cs) =
      (view (parseDigits usizeMax cs)).bind fun min => view (upperBound usizeMax min.1 min.2) := by
    intro cs
    unfold parseBoundedRepeat
    cases parseDigits usizeMax cs with
    | none => rfl
    | some min =>
      show view (Option.map _ (upperBound usizeMax min.value min.rest)) =
        view (upperBound usizeMax min.value min.rest)
      rw [view, view, Option.map_map]
      rfl
  rw [reads, reads, parseDigits_outside]
  cases view (parseDigits usizeMax cs) with
  | none => rfl
  | some min => exact upperBound_outside _ _ _

/-- A quantifier's node and what is left. -/
def viewQuantified (usizeMax : ℕ) (atom : Node) (cs : List Char) : Node × List Char :=
  ((quantified usizeMax atom cs).value, (quantified usizeMax atom cs).rest)

theorem viewQuantified_brace (usizeMax : ℕ) (atom : Node) (cs : List Char) :
    viewQuantified usizeMax atom ('{' :: cs) =
      ((view (parseBoundedRepeat usizeMax cs)).map fun r =>
        (Node.repeat atom r.1.1 r.1.2, r.2)).getD (atom, '{' :: cs) := by
  rw [viewQuantified, quantified]
  cases parseBoundedRepeat usizeMax cs <;> rfl

theorem viewQuantified_none (usizeMax : ℕ) (atom : Node) {cs : List Char}
    (none : ∀ x ∈ ['*', '+', '?', '{'], cs.head? ≠ some x) :
    viewQuantified usizeMax atom cs = (atom, cs) := by
  rw [viewQuantified, quantified]
  all_goals
    rintro rest rfl
    exact none _ (by decide) rfl

theorem quantified_outside (usizeMax : ℕ) (atom : Node) (cs : List Char) :
    viewQuantified usizeMax atom.anchored (outside cs) =
      ((viewQuantified usizeMax atom cs).1.anchored,
        outside (viewQuantified usizeMax atom cs).2) := by
  by_cases any : ∃ x ∈ ['*', '+', '?', '{'], cs.head? = some x
  · obtain ⟨x, mem, head⟩ := any
    obtain ⟨rest, rfl⟩ := List.head?_eq_some_iff.mp head
    simp only [List.mem_cons, List.not_mem_nil, or_false] at mem
    rcases mem with rfl | rfl | rfl | rfl
    · rw [outside_plain (by decide)]
      rfl
    · rw [outside_plain (by decide)]
      rfl
    · rw [outside_plain (by decide)]
      rfl
    · rw [outside_plain (by decide), viewQuantified_brace, viewQuantified_brace,
        parseBoundedRepeat_outside]
      cases view (parseBoundedRepeat usizeMax rest) with
      | none => exact congrArg (Prod.mk atom.anchored) (outside_plain (by decide) rest).symm
      | some r => rfl
  · have none : ∀ x ∈ ['*', '+', '?', '{'], cs.head? ≠ some x := by
      intro x mem head
      exact any ⟨x, mem, head⟩
    have none' : ∀ x ∈ ['*', '+', '?', '{'], (outside cs).head? ≠ some x := by
      intro x mem head
      have plain : x ∉ ['\\', '[', '^', '$'] := by
        revert mem
        simp only [List.mem_cons, List.not_mem_nil, or_false]
        rintro (rfl | rfl | rfl | rfl) <;> decide
      exact none x mem ((outside_head plain cs).mp head)
    rw [viewQuantified_none usizeMax _ none, viewQuantified_none usizeMax _ none']

/-! The whole parser. -/

section

variable (usizeMax : ℕ)

def viewAlt (cs : List Char) : Option (List Node × List Char) := view (parseAlt usizeMax cs)

def viewBranches (cs : List Char) : Option (List (List Node) × List Char) :=
  view (parseBranches usizeMax cs)

def viewConcat (cs : List Char) : Option (List Node × List Char) := view (parseConcat usizeMax cs)

def viewRepeat (cs : List Char) : Option (Node × List Char) := view (parseRepeat usizeMax cs)

def viewAtom (cs : List Char) : Option (Node × List Char) := view (parseAtom usizeMax cs)

theorem viewAlt_eq (cs : List Char) : viewAlt usizeMax cs =
    (viewConcat usizeMax cs).bind fun first =>
      if first.2.head? = some '|' then
        (viewBranches usizeMax first.2).map fun r => ([.alt (first.1 :: r.1)], r.2)
      else some first := by
  unfold viewAlt viewConcat
  rw [parseAlt]
  cases parseConcat usizeMax cs with
  | none => rfl
  | some first =>
    obtain ⟨nodes, rest, within⟩ := first
    show view _ = if rest.head? = some '|' then _ else _
    cases rest with
    | nil => rfl
    | cons c rest =>
      by_cases bar : c = '|'
      · subst bar
        rw [List.head?_cons, if_pos rfl]
        show view (Option.map _ (parseBranches usizeMax ('|' :: rest))) =
          Option.map _ (view (parseBranches usizeMax ('|' :: rest)))
        rw [view, view, Option.map_map, Option.map_map]
        rfl
      · rw [List.head?_cons, if_neg (by simpa using bar)]
        dsimp only
        split
        · rename_i same
          exact absurd (List.cons.inj same).1 bar
        · rfl

theorem viewBranches_bar (cs : List Char) : viewBranches usizeMax ('|' :: cs) =
    (viewConcat usizeMax cs).bind fun branch =>
      (viewBranches usizeMax branch.2).map fun r => (branch.1 :: r.1, r.2) := by
  unfold viewBranches viewConcat
  rw [parseBranches]
  cases parseConcat usizeMax cs with
  | none => rfl
  | some branch =>
    show view (Option.map _ (parseBranches usizeMax branch.rest)) =
      Option.map _ (view (parseBranches usizeMax branch.rest))
    rw [view, view, Option.map_map, Option.map_map]
    rfl

theorem viewBranches_none {cs : List Char} (none : cs.head? ≠ some '|') :
    viewBranches usizeMax cs = some ([], cs) := by
  unfold viewBranches
  rw [parseBranches]
  · rfl
  · rintro rest rfl
    exact none rfl

theorem viewConcat_nil : viewConcat usizeMax [] = some ([], []) := by
  unfold viewConcat
  rw [parseConcat]
  rfl

theorem viewConcat_stop {c : Char} (stop : c = '|' ∨ c = ')') (cs : List Char) :
    viewConcat usizeMax (c :: cs) = some ([], c :: cs) := by
  unfold viewConcat
  rw [parseConcat, if_pos stop]
  rfl

theorem viewConcat_cons {c : Char} (goes : ¬ (c = '|' ∨ c = ')')) (cs : List Char) :
    viewConcat usizeMax (c :: cs) =
      (viewRepeat usizeMax (c :: cs)).bind fun node =>
        (viewConcat usizeMax node.2).map fun r => (node.1 :: r.1, r.2) := by
  unfold viewConcat viewRepeat
  rw [parseConcat, if_neg goes]
  cases parseRepeat usizeMax (c :: cs) with
  | none => rfl
  | some node =>
    show view (Option.map _ (parseConcat usizeMax node.rest)) =
      Option.map _ (view (parseConcat usizeMax node.rest))
    rw [view, view, Option.map_map, Option.map_map]
    rfl

theorem viewRepeat_eq (cs : List Char) : viewRepeat usizeMax cs =
    (viewAtom usizeMax cs).map fun atom => viewQuantified usizeMax atom.1 atom.2 := by
  unfold viewRepeat viewAtom
  rw [parseRepeat]
  cases parseAtom usizeMax cs <;> rfl

theorem viewAtom_group (cs : List Char) : viewAtom usizeMax ('(' :: cs) =
    (viewAlt usizeMax cs).bind fun inner =>
      if inner.2.head? = some ')' then some (.group inner.1, inner.2.tail) else none := by
  unfold viewAtom viewAlt
  rw [parseAtom]
  conv =>
    lhs
    arg 1
    whnf
  cases parseAlt usizeMax cs with
  | none => rfl
  | some inner =>
    obtain ⟨nodes, rest, within⟩ := inner
    cases rest with
    | nil => rfl
    | cons c rest =>
      by_cases close : c = ')'
      · subst close
        rfl
      · show _ = if some c = some ')' then _ else _
        rw [if_neg (by simpa using close)]
        split
        · rename_i same
          cases same
          exact absurd rfl close
        · rfl

theorem viewAtom_class (cs : List Char) : viewAtom usizeMax ('[' :: cs) = view (parseClass cs) := by
  unfold viewAtom
  rw [parseAtom]
  rfl

/-- What an escaped character is outside a class. -/
def escaped : Char → Node
  | 'A' => .stringStart
  | 'z' => .stringEnd
  | 'Z' => .stringEnd
  | c => .literal (escapeChar c)

theorem viewAtom_escape (c : Char) (cs : List Char) :
    viewAtom usizeMax ('\\' :: c :: cs) = some (escaped c, cs) := by
  have cases := parseAtom.fun_cases_unfolding usizeMax fun text r =>
    text = '\\' :: c :: cs → view r = some (escaped c, cs)
  apply cases
  case case11 =>
    rintro d rest notA notz notZ ⟨⟩
    rw [escaped]
    · rfl
    · exact notA
    · exact notz
    · exact notZ
  case case13 =>
    rintro d rest _ _ _ _ _ _ _ _ plain _ ⟨⟩
    exact absurd rfl (plain c cs rfl)
  case a => rfl
  all_goals
    intros
    rename_i same
    cases same <;> rfl

theorem viewAtom_slash : viewAtom usizeMax ['\\'] = none := by
  unfold viewAtom
  rw [parseAtom]
  rfl

theorem viewAtom_nil : viewAtom usizeMax [] = none := by
  unfold viewAtom
  rw [parseAtom]
  rfl

/-- What a character is that opens nothing. -/
def single : Char → Node
  | '.' => .any
  | '^' => .lineStart
  | '$' => .lineEnd
  | c => .literal c

theorem viewAtom_single {c : Char} (alone : c ∉ ['(', '[', '\\']) (cs : List Char) :
    viewAtom usizeMax (c :: cs) = some (single c, cs) := by
  have cases := parseAtom.fun_cases_unfolding usizeMax fun text r =>
    text = c :: cs → view r = some (single c, cs)
  apply cases
  case case13 =>
    rintro d rest dot start stop _ _ _ _ _ _ _ ⟨⟩
    rw [single]
    · rfl
    · exact dot
    · exact start
    · exact stop
  case a => rfl
  all_goals
    intros
    rename_i same
    cases same <;> first | rfl | exact absurd alone (by decide)

/-- A reader answers for the rewritten text what it answers for the text, its value anchored. -/
def Carried {α : Type} (reader : List Char → Option (α × List Char)) (f : α → α)
    (cs : List Char) : Prop :=
  ∀ ⦃v : α⦄ ⦃rest : List Char⦄, reader cs = some (v, rest) →
    reader (outside cs) = some (f v, outside rest)

theorem viewConcat_shorter {cs rest : List Char} {nodes : List Node}
    (read : viewConcat usizeMax cs = some (nodes, rest)) : rest.length ≤ cs.length :=
  (view_eq_some.mp read).1

theorem viewRepeat_shorter {cs rest : List Char} {node : Node}
    (read : viewRepeat usizeMax cs = some (node, rest)) : rest.length ≤ cs.tail.length :=
  (view_eq_some.mp read).1

theorem carried_escape (c : Char) (cs : List Char) :
    Carried (viewAtom usizeMax) Node.anchored ('\\' :: c :: cs) := by
  intro v rest read
  rw [viewAtom_escape] at read
  cases read
  have same : (escaped c).anchored = escaped c := by
    unfold escaped
    split <;> rfl
  rw [outside_escape, viewAtom_escape, same]

theorem carried_single {c : Char} (alone : c ∉ ['(', '[', '\\']) (cs : List Char) :
    Carried (viewAtom usizeMax) Node.anchored (c :: cs) := by
  intro v rest read
  rw [viewAtom_single usizeMax alone] at read
  cases read
  by_cases start : c = '^'
  · subst start
    rw [outside_cons (by decide) (by decide)]
    exact viewAtom_escape usizeMax 'A' _
  by_cases stop : c = '$'
  · subst stop
    rw [outside_cons (by decide) (by decide)]
    exact viewAtom_escape usizeMax 'z' _
  have plain : c ∉ ['\\', '[', '^', '$'] := by
    simp only [List.mem_cons, List.not_mem_nil, or_false, not_or] at alone ⊢
    exact ⟨alone.2.2, alone.2.1, start, stop⟩
  have same : (single c).anchored = single c := by
    unfold single
    split
    · rfl
    · exact absurd rfl start
    · exact absurd rfl stop
    · rfl
  rw [outside_plain plain, viewAtom_single usizeMax alone, same]

theorem carried_atom {cs : List Char}
    (inner : ∀ {rest : List Char}, cs = '(' :: rest → Carried (viewAlt usizeMax) anchoredAll rest) :
    Carried (viewAtom usizeMax) Node.anchored cs := by
  cases cs with
  | nil =>
    intro v rest read
    rw [viewAtom_nil] at read
    cases read
  | cons c cs =>
    by_cases alone : c ∉ ['(', '[', '\\']
    · exact carried_single usizeMax alone cs
    · rw [not_not] at alone
      simp only [List.mem_cons, List.not_mem_nil, or_false] at alone
      rcases alone with rfl | rfl | rfl
      · intro v rest read
        rw [viewAtom_group] at read
        obtain ⟨⟨nodes, left⟩, alt, closing⟩ := Option.bind_eq_some_iff.mp read
        by_cases close : left.head? = some ')'
        · obtain ⟨behind, rfl⟩ := List.head?_eq_some_iff.mp close
          cases closing
          rw [outside_plain (by decide), viewAtom_group, inner rfl alt, Option.bind_some,
            outside_plain (by decide)]
          rfl
        · rw [if_neg close] at closing
          cases closing
      · intro v rest read
        rw [viewAtom_class] at read
        obtain ⟨tail, rewritten, class'⟩ := parseClass_outside read
        rw [rewritten, viewAtom_class, class']
      · cases cs with
        | nil =>
          intro v rest read
          rw [viewAtom_slash] at read
          cases read
        | cons e cs => exact carried_escape usizeMax e cs

theorem carried_repeat {cs : List Char} (atom : Carried (viewAtom usizeMax) Node.anchored cs) :
    Carried (viewRepeat usizeMax) Node.anchored cs := by
  intro v rest read
  rw [viewRepeat_eq] at read
  obtain ⟨⟨node, left⟩, first, same⟩ := Option.map_eq_some_iff.mp read
  rw [viewRepeat_eq, atom first, Option.map_some, quantified_outside, same]

theorem outside_head_stop {c : Char} (stop : c = '|' ∨ c = ')') (cs : List Char) :
    outside (c :: cs) = c :: outside cs := by
  apply outside_plain
  rcases stop with rfl | rfl <;> decide

theorem outside_ne_nil (c : Char) (cs : List Char) : outside (c :: cs) ≠ [] := by
  by_cases slash : c = '\\'
  · subst slash
    cases cs with
    | nil => exact List.cons_ne_nil _ _
    | cons e cs =>
      rw [outside_escape]
      exact List.cons_ne_nil _ _
  by_cases opening : c = '['
  · subst opening
    by_cases negated : cs.head? = some '^'
    · obtain ⟨rest, rfl⟩ := List.head?_eq_some_iff.mp negated
      rw [outside_negated]
      exact List.cons_ne_nil _ _
    · rw [outside_class negated]
      exact List.cons_ne_nil _ _
  rw [outside_cons slash opening]
  apply List.append_ne_nil_of_left_ne_nil
  unfold anchor
  split <;> exact List.cons_ne_nil _ _

/-- The rewriting leaves a text that does not stop a sequence such a text. -/
theorem outside_goes {c : Char} (goes : ¬ (c = '|' ∨ c = ')')) (cs : List Char) :
    ∃ d ds, outside (c :: cs) = d :: ds ∧ ¬ (d = '|' ∨ d = ')') := by
  cases shape : outside (c :: cs) with
  | nil => exact absurd shape (outside_ne_nil c cs)
  | cons d ds =>
    refine ⟨d, ds, rfl, fun stop => goes ?_⟩
    have head : (outside (c :: cs)).head? = some d := by
      rw [shape]
      rfl
    have plain : d ∉ ['\\', '[', '^', '$'] := by
      rcases stop with rfl | rfl <;> decide
    rw [outside_head plain, List.head?_cons, Option.some.injEq] at head
    rwa [head]

theorem carried_concat {cs : List Char}
    (first : Carried (viewRepeat usizeMax) Node.anchored cs)
    (behind : ∀ {rest : List Char}, rest.length < cs.length →
      Carried (viewConcat usizeMax) anchoredAll rest) :
    Carried (viewConcat usizeMax) anchoredAll cs := by
  intro v rest read
  cases cs with
  | nil =>
    rw [viewConcat_nil] at read
    cases read
    exact viewConcat_nil usizeMax
  | cons c cs =>
    by_cases stop : c = '|' ∨ c = ')'
    · rw [viewConcat_stop usizeMax stop] at read
      cases read
      rw [outside_head_stop stop, viewConcat_stop usizeMax stop]
      rfl
    · rw [viewConcat_cons usizeMax stop] at read
      obtain ⟨⟨node, left⟩, one, read⟩ := Option.bind_eq_some_iff.mp read
      obtain ⟨⟨nodes, last⟩, others, same⟩ := Option.map_eq_some_iff.mp read
      cases same
      have shorter : left.length < (c :: cs).length :=
        Nat.lt_succ_of_le (viewRepeat_shorter usizeMax one)
      obtain ⟨d, ds, rewritten, goes⟩ := outside_goes stop cs
      have one' := first one
      rw [rewritten] at one' ⊢
      rw [viewConcat_cons usizeMax goes, one', Option.bind_some, behind shorter others]
      rfl

theorem carried_branches {cs : List Char}
    (concat : ∀ {rest : List Char}, rest.length < cs.length →
      Carried (viewConcat usizeMax) anchoredAll rest)
    (behind : ∀ {rest : List Char}, rest.length < cs.length →
      Carried (viewBranches usizeMax) anchoredBranches rest) :
    Carried (viewBranches usizeMax) anchoredBranches cs := by
  intro v rest read
  by_cases bar : cs.head? = some '|'
  · obtain ⟨tail, rfl⟩ := List.head?_eq_some_iff.mp bar
    rw [viewBranches_bar] at read
    obtain ⟨⟨branch, left⟩, one, read⟩ := Option.bind_eq_some_iff.mp read
    obtain ⟨⟨branches, last⟩, others, same⟩ := Option.map_eq_some_iff.mp read
    cases same
    have shorter : left.length < ('|' :: tail).length :=
      Nat.lt_succ_of_le (viewConcat_shorter usizeMax one)
    rw [outside_plain (by decide), viewBranches_bar,
      concat (Nat.lt_succ_self tail.length) one, Option.bind_some, behind shorter others]
    rfl
  · rw [viewBranches_none usizeMax bar] at read
    cases read
    rw [viewBranches_none usizeMax ((outside_head (by decide) cs).not.mpr bar)]
    rfl

theorem carried_alt {cs : List Char} (concat : Carried (viewConcat usizeMax) anchoredAll cs)
    (branches : ∀ {rest : List Char}, rest.length ≤ cs.length →
      Carried (viewBranches usizeMax) anchoredBranches rest) :
    Carried (viewAlt usizeMax) anchoredAll cs := by
  intro v rest read
  rw [viewAlt_eq] at read
  obtain ⟨⟨first, left⟩, one, read⟩ := Option.bind_eq_some_iff.mp read
  rw [viewAlt_eq, concat one, Option.bind_some]
  by_cases bar : left.head? = some '|'
  · rw [if_pos bar] at read
    obtain ⟨⟨others, last⟩, more, same⟩ := Option.map_eq_some_iff.mp read
    cases same
    rw [if_pos ((outside_head (by decide) left).mpr bar),
      branches (viewConcat_shorter usizeMax one) more]
    rfl
  · rw [if_neg bar] at read
    cases read
    rw [if_neg ((outside_head (by decide) rest).not.mpr bar)]

/-- By the length of the text: a group, and what is behind a part, are shorter than it. -/
theorem carried (n : ℕ) : ∀ {cs : List Char}, cs.length < n →
    Carried (viewConcat usizeMax) anchoredAll cs ∧
      Carried (viewBranches usizeMax) anchoredBranches cs ∧
      Carried (viewAlt usizeMax) anchoredAll cs := by
  induction n with
  | zero =>
    intro cs short
    exact absurd short (Nat.not_lt_zero _)
  | succ n ih =>
    intro cs short
    have below : ∀ {rest : List Char}, rest.length < cs.length → rest.length < n :=
      fun shorter => Nat.lt_of_lt_of_le shorter (Nat.le_of_lt_succ short)
    have atom : Carried (viewAtom usizeMax) Node.anchored cs := by
      apply carried_atom
      rintro rest rfl
      exact (ih (below (Nat.lt_succ_self rest.length))).2.2
    have concat : Carried (viewConcat usizeMax) anchoredAll cs :=
      carried_concat usizeMax (carried_repeat usizeMax atom) fun shorter => (ih (below shorter)).1
    have branches : ∀ {rest : List Char}, rest.length ≤ cs.length →
        Carried (viewBranches usizeMax) anchoredBranches rest := by
      intro rest within
      apply carried_branches
      · exact fun shorter => (ih (below (Nat.lt_of_lt_of_le shorter within))).1
      · exact fun shorter => (ih (below (Nat.lt_of_lt_of_le shorter within))).2.1
    exact ⟨concat, branches le_rfl, carried_alt usizeMax concat branches⟩

theorem parse_eq_some {pattern : String} {nodes : List Node} :
    parse usizeMax pattern = some nodes ↔
      viewAlt usizeMax pattern.toList = some (nodes, []) := by
  unfold parse viewAlt
  rw [view_eq_some]
  split
  · rename_i read
    rw [read]
    simp
  · rename_i none
    constructor
    · intro impossible
      cases impossible
    · rintro ⟨within, read⟩
      exact absurd read (none _ within)

end

/-- Whatever parses still parses once it is made to match the whole value, and only its line
anchors have changed. -/
theorem parse_wholeString (usizeMax : ℕ) (pattern : String) (nodes : List Node)
    (parsed : parse usizeMax pattern = some nodes) :
    parse usizeMax (wholeString pattern) = some (anchoredAll nodes) := by
  rw [parse_eq_some] at parsed ⊢
  rw [wholeString, String.toList_ofList]
  exact (carried usizeMax _ (Nat.lt_succ_self _)).2.2 parsed

theorem parse_wholeString_letters :
    parse 4294967295 "^[]^$]+\\$$" = some
        [.lineStart, .repeat (.class false [(']', ']'), ('^', '^'), ('$', '$')]) 1 none,
          .literal '$', .lineEnd] ∧
      parse 4294967295 (wholeString "^[]^$]+\\$$") = some
        [.stringStart, .repeat (.class false [(']', ']'), ('^', '^'), ('$', '$')]) 1 none,
          .literal '$', .stringEnd] := by
  have parsed : parse 4294967295 "^[]^$]+\\$$" = some
        [.lineStart, .repeat (.class false [(']', ']'), ('^', '^'), ('$', '$')]) 1 none,
          .literal '$', .lineEnd] := by
    with_unfolding_all rfl
  exact ⟨parsed, parse_wholeString _ _ _ parsed⟩

end Hecks.Pattern
