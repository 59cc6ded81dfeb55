import Hecks.Sentence.Phrases

/-! The matcher with its stack of captures, and the cuts of a sentence it finds. -/
namespace Hecks.Sentence

namespace Matching

/-- What a match writes on its way: `captures` is pushed before a slot's run is tried and popped
when the run fails, `furthest` only rises. -/
structure Stack where
  captures : Captures
  furthest : Nat

/-- The runs a slot may take, tried one after the other. -/
def tryTakes (go : Nat → Stack → Bool × Stack) (name : List Char) :
    List (Nat × Capture) → Stack → Bool × Stack
  | [], s => (false, s)
  | (stop, capture) :: others, s =>
      let tried := go stop { s with captures := s.captures ++ [(name, capture)] }
      if tried.1 then (true, tried.2)
      else tryTakes go name others { tried.2 with captures := tried.2.captures.dropLast }

def go (tokens : List Token) (sentence : List Char) : List Part → Nat → Stack → Bool × Stack
  | [], at', s => (at' = tokens.length, { s with furthest := max s.furthest at' })
  | .lit word :: rest, at', s =>
      let s := { s with furthest := max s.furthest at' }
      if (tokens[at']?.map fun t => t.isWord && sameWord t.text word).getD false then
        go tokens sentence rest (at' + 1) s
      else (false, s)
  | .alt words :: rest, at', s =>
      let s := { s with furthest := max s.furthest at' }
      if (tokens[at']?.map fun t => t.isWord && words.any (sameWord t.text)).getD false then
        go tokens sentence rest (at' + 1) s
      else (false, s)
  | .punct mark :: rest, at', s =>
      let s := { s with furthest := max s.furthest at' }
      if (tokens[at']?.map fun t => decide (t.kind = .punct mark)).getD false then
        go tokens sentence rest (at' + 1) s
      else (false, s)
  | .slot name kind :: rest, at', s =>
      tryTakes (go tokens sentence rest) name (takes kind tokens sentence at')
        { s with furthest := max s.furthest at' }

/-- `furthest` as the caller holds it, raised. -/
def matchSentence (pattern : Pattern) (tokens : List Token) (sentence : List Char)
    (furthest : Nat) : Option Captures × Nat :=
  let (fits, s) := go tokens sentence pattern.parts 0 ⟨[], furthest⟩
  (if fits then some s.captures else none, s.furthest)

end Matching

/-! ### The cuts of a sentence -/

/-- The one token a part takes when it takes one. -/
def Part.fits : Part → Token → Bool
  | .lit word, t => t.isWord && sameWord t.text word
  | .alt words, t => t.isWord && words.any (sameWord t.text)
  | .punct mark, t => t.kind = .punct mark
  | .slot _ .text, t => t.kind = .quoted
  | .slot _ .int, t => t.isWord && !t.text.isEmpty && t.text.all isAsciiDigit
  | .slot _ .event, t => t.isWord && isEvent t.text
  | .slot _ .path, t => t.isWord && isPath t.text
  | .slot _ _, t => t.isWord

/-- The runs of tokens a part admits. -/
def Part.Admits : Part → List Token → Prop
  | .slot _ .words, run => run ≠ [] ∧ ∀ t ∈ run, t.isWord
  | .slot _ .list, run => (∀ t ∈ run, t.isWord ∨ t.kind = .punct ',') ∧
      (∃ t, run.getLast? = some t ∧ t.isWord) ∧ listItems run ≠ []
  | .slot _ .rest, run => run ≠ []
  | part, run => ∃ t, run = [t] ∧ part.fits t

def Part.takesRest : Part → Bool
  | .slot _ .rest => true
  | _ => false

/-- Whether a part admits runs of several lengths from one place. -/
def Part.stretches : Part → Bool
  | .slot _ .words | .slot _ .list => true
  | _ => false

/-- Tokens cut into consecutive runs, one for each part. -/
inductive Cut : List Part → List Token → List (List Token) → Prop
  | done : Cut [] [] []
  | take {part : Part} {parts : List Part} {run rest : List Token} {runs : List (List Token)} :
      part.Admits run → (part.takesRest → rest = []) → Cut parts rest runs →
        Cut (part :: parts) (run ++ rest) (run :: runs)

/-- What a slot says of its run: the tokens' texts, a list's items, or the sentence as written from
the first token to the last. -/
def SlotKind.capture (sentence : List Char) : SlotKind → List Token → Capture
  | kind, run =>
      let start := (run.head?.map (·.start)).getD 0
      match kind with
      | .list => ⟨joinWith [',', ' '] (listItems run), listItems run, start⟩
      | .rest =>
          let stop := (run.getLast?.map (·.stop)).getD 0
          single ((sentence.drop start).take (stop - start)) start
      | _ => single (joinWith [' '] (run.map (·.text))) start

/-- The slots of a pattern in order, each with what it says of its run. -/
def capturesOf (sentence : List Char) : List Part → List (List Token) → Captures
  | .slot name kind :: parts, run :: runs =>
      (name, kind.capture sentence run) :: capturesOf sentence parts runs
  | _ :: parts, _ :: runs => capturesOf sentence parts runs
  | _, _ => []

/-- How many tokens each slot that stretches takes. -/
def spans : List Part → List (List Token) → List Nat
  | part :: parts, run :: runs =>
      if part.stretches then run.length :: spans parts runs else spans parts runs
  | _, _ => []

/-- A cut no other cut undercuts where they first differ. -/
def Cut.Least (parts : List Part) (tokens : List Token) (runs : List (List Token)) : Prop :=
  Cut parts tokens runs ∧ ∀ runs', Cut parts tokens runs' → spans parts runs ≤ spans parts runs'

variable {sentence : List Char} {tokens : List Token} {part : Part} {parts : List Part}
  {name : List Char} {kind : SlotKind} {runs : List (List Token)} {at' : Nat}

/-! ### The runs a slot may take -/

theorem Part.Admits.ne_nil {run : List Token} (h : part.Admits run) : run ≠ [] := by
  rintro rfl
  cases part with
  | slot name kind =>
    cases kind with
    | words => exact h.1 rfl
    | rest => exact h rfl
    | list =>
      obtain ⟨t, last, -⟩ := h.2.1
      cases last
    | word | text | int | path | event =>
      obtain ⟨t, one, -⟩ := h
      cases one
  | lit | alt | punct =>
    obtain ⟨t, one, -⟩ := h
    cases one

theorem takes_nil (ended : tokens.drop at' = []) : takes kind tokens sentence at' = [] := by
  have none : tokens[at']? = none := by
    rw [List.getElem?_eq_none_iff]
    exact List.drop_eq_nil_iff.mp ended
  rw [takes, none]

theorem length_take_takeWhile {α : Type} {p : α → Bool} {xs : List α} {n : Nat}
    (below : n < (xs.takeWhile p).length) : (xs.take (n + 1)).length = n + 1 := by
  have size := (List.takeWhile_prefix (l := xs) p).length_le
  rw [List.length_take]
  omega

/-- The tokens from a place on that pass, as far as they do. -/
theorem take_takeWhile {α : Type} {p : α → Bool} {xs run rest : List α} :
    (∃ n < (xs.takeWhile p).length, run = xs.take (n + 1) ∧ rest = xs.drop (n + 1)) ↔
      xs = run ++ rest ∧ run ≠ [] ∧ ∀ x ∈ run, p x := by
  constructor
  · rintro ⟨n, within, rfl, rfl⟩
    have inside : n + 1 ≤ (xs.takeWhile p).length := within
    have whole : xs.take (n + 1) = (xs.takeWhile p).take (n + 1) := by
      obtain ⟨rest, split⟩ := List.takeWhile_prefix (l := xs) p
      conv_lhs => rw [← split]
      exact List.take_append_of_le_length inside
    refine ⟨(List.take_append_drop _ _).symm, ?_, ?_⟩
    · rw [whole]
      exact List.ne_nil_of_length_pos (by rw [List.length_take]; omega)
    · intro x mem
      rw [whole] at mem
      exact List.mem_takeWhile_imp (List.mem_of_mem_take mem)
  · rintro ⟨rfl, filled, all⟩
    have long := List.length_pos_of_ne_nil filled
    have same : run.length - 1 + 1 = run.length := by omega
    refine ⟨run.length - 1, ?_, ?_, ?_⟩
    · rw [List.takeWhile_append_of_pos all, List.length_append]
      omega
    · rw [same, List.take_left']
      rfl
    · rw [same, List.drop_left']
      rfl

/-- Where a slot may stop and what it says then, from a place with tokens left. -/
theorem takes_cons {first : Token} {others : List Token}
    (left : tokens.drop at' = first :: others) :
    takes kind tokens sentence at' =
      let one := (at' + 1, single first.text first.start)
      match kind with
      | .text => if first.kind = .quoted then [one] else []
      | .word => if first.isWord then [one] else []
      | .int =>
          if first.isWord && !first.text.isEmpty && first.text.all isAsciiDigit then [one] else []
      | .event => if first.isWord && isEvent first.text then [one] else []
      | .path => if first.isWord && isPath first.text then [one] else []
      | .rest => [(tokens.length, SlotKind.capture sentence .rest (first :: others))]
      | .words => (List.range (runLength false tokens at')).map fun n =>
          (at' + n + 1, SlotKind.capture sentence .words ((first :: others).take (n + 1)))
      | .list => (List.range (runLength true tokens at')).filterMap fun n =>
          let run := (first :: others).take (n + 1)
          if (run.getLast?.map Token.isWord).getD false && !(listItems run).isEmpty then
            some (at' + n + 1, SlotKind.capture sentence .list run)
          else none := by
  have head : tokens[at']? = some first := by
    rw [← List.head?_drop, left]
    rfl
  have last : tokens.getLast? = (first :: others).getLast? := by
    rw [← left, List.getLast?_drop, if_neg]
    intro short
    rw [List.drop_eq_nil_of_le short] at left
    cases left
  obtain ⟨final, ends⟩ : ∃ final, (first :: others).getLast? = some final :=
    ⟨_, List.getLast?_eq_some_getLast (List.cons_ne_nil first others)⟩
  rw [takes, head, last, ends]
  cases kind with
  | rest => simp [SlotKind.capture, ends]
  | words => simp [left, SlotKind.capture]
  | list => simp [left, SlotKind.capture]
  | text | word | int | event | path => rfl

theorem admits_iff (fixed : part.stretches = false) (ends : part.takesRest = false)
    {run : List Token} : part.Admits run ↔ ∃ t, run = [t] ∧ part.fits t := by
  cases part with
  | slot name kind =>
    cases kind with
    | words | list => cases fixed
    | rest => cases ends
    | word | text | int | path | event => exact Iff.rfl
  | lit | alt | punct => exact Iff.rfl

/-- A part of one token takes the first of those left. -/
theorem one_iff (fixed : part.stretches = false) (ends : part.takesRest = false) {first : Token}
    {others : List Token} {P : List Token → List Token → Prop} :
    (∃ run rest, first :: others = run ++ rest ∧ part.Admits run ∧ P run rest) ↔
      part.fits first ∧ P [first] others := by
  constructor
  · rintro ⟨run, rest, split, admits, holds⟩
    obtain ⟨t, rfl, fits⟩ := (admits_iff fixed ends).mp admits
    obtain ⟨rfl, rfl⟩ := List.cons.inj split
    exact ⟨fits, holds⟩
  · rintro ⟨fits, holds⟩
    exact ⟨[first], others, rfl, (admits_iff fixed ends).mpr ⟨first, rfl, fits⟩, holds⟩

theorem mem_takes (name : List Char) {stop : Nat} {capture : Capture} :
    (stop, capture) ∈ takes kind tokens sentence at' ↔
      ∃ run rest, tokens.drop at' = run ++ rest ∧ (Part.slot name kind).Admits run ∧
        ((Part.slot name kind).takesRest → rest = []) ∧ stop = at' + run.length ∧
        capture = kind.capture sentence run := by
  cases left : tokens.drop at' with
  | nil =>
    rw [takes_nil left]
    constructor
    · intro mem
      cases mem
    · rintro ⟨run, rest, split, admits, -, -, -⟩
      exact absurd (List.append_eq_nil_iff.mp split.symm).1 admits.ne_nil
  | cons first others =>
    rw [takes_cons left]
    have within : at' < tokens.length := by
      by_contra short
      rw [List.drop_eq_nil_of_le (Nat.le_of_not_lt short)] at left
      cases left
    have length : (first :: others).length = tokens.length - at' := by
      rw [← left, List.length_drop]
    cases kind with
    | text | word | int | event | path =>
      rw [one_iff rfl rfl]
      simp [Part.fits, Part.takesRest, SlotKind.capture, joinWith, and_assoc]
    | rest =>
      simp only [List.mem_singleton, Prod.mk.injEq]
      constructor
      · rintro ⟨rfl, rfl⟩
        refine ⟨first :: others, [], by simp, List.cons_ne_nil _ _, fun _ => rfl, ?_, rfl⟩
        omega
      · rintro ⟨run, rest, split, -, all, rfl, rfl⟩
        obtain rfl := all rfl
        rw [List.append_nil] at split
        subst split
        exact ⟨by omega, rfl⟩
    | words =>
      simp only [List.mem_map, List.mem_range, Prod.mk.injEq, runLength, left, Bool.false_and,
        Bool.or_false]
      constructor
      · rintro ⟨n, below, rfl, rfl⟩
        obtain ⟨split, filled, all⟩ := take_takeWhile.mp ⟨n, below, rfl, rfl⟩
        refine ⟨_, _, split, ⟨filled, all⟩, nofun, ?_, rfl⟩
        rw [length_take_takeWhile below, Nat.add_assoc]
      · rintro ⟨run, rest, split, ⟨filled, all⟩, -, rfl, rfl⟩
        obtain ⟨n, below, rfl, rfl⟩ := take_takeWhile.mpr ⟨split, filled, all⟩
        refine ⟨n, below, ?_, rfl⟩
        rw [length_take_takeWhile below, Nat.add_assoc]
    | list =>
      simp only [List.mem_filterMap, List.mem_range, runLength, left, Bool.true_and]
      constructor
      · rintro ⟨n, below, kept⟩
        obtain ⟨split, filled, all⟩ := take_takeWhile.mp ⟨n, below, rfl, rfl⟩
        split at kept
        · rename_i fits
          obtain ⟨last, items⟩ := Bool.and_eq_true_iff.mp fits
          cases kept
          refine ⟨_, _, split, ⟨?_, ?_, ?_⟩, nofun, ?_, rfl⟩
          · simpa using all
          · cases ends : ((first :: others).take (n + 1)).getLast? with
            | none =>
              rw [ends] at last
              cases last
            | some t =>
              rw [ends] at last
              exact ⟨t, rfl, last⟩
          · simpa using items
          · rw [length_take_takeWhile below, Nat.add_assoc]
        · cases kept
      · rintro ⟨run, rest, split, ⟨all, ⟨t, last, word⟩, items⟩, -, rfl, rfl⟩
        have filled : run ≠ [] := by
          rintro rfl
          cases last
        obtain ⟨n, below, rfl, rfl⟩ := take_takeWhile (p := fun t : Token =>
          t.isWord || decide (t.kind = .punct ',')).mpr ⟨split, filled, by simpa using all⟩
        refine ⟨n, below, ?_⟩
        have holds : ((((first :: others).take (n + 1)).getLast?.map Token.isWord).getD false &&
            !(listItems ((first :: others).take (n + 1))).isEmpty) = true := by
          rw [last, Option.map_some, Option.getD_some, word, Bool.true_and, Bool.not_eq_true',
            List.isEmpty_eq_false_iff]
          exact items
        rw [if_pos holds, length_take_takeWhile below, Nat.add_assoc]

/-- Shorter runs are tried before longer ones. -/
theorem takes_ascend : (takes kind tokens sentence at').Pairwise fun a b => a.1 < b.1 := by
  cases left : tokens.drop at' with
  | nil =>
    rw [takes_nil left]
    exact List.Pairwise.nil
  | cons first others =>
    rw [takes_cons left]
    cases kind with
    | text | word | int | event | path =>
      dsimp only
      split
      · exact List.pairwise_singleton _ _
      · exact List.Pairwise.nil
    | rest => exact List.pairwise_singleton _ _
    | words =>
      refine List.pairwise_lt_range.map _ fun m n less => ?_
      exact Nat.succ_lt_succ (Nat.add_lt_add_left less at')
    | list =>
      refine List.pairwise_lt_range.filterMap _ fun m n less a took b took' => ?_
      dsimp only at took took'
      split at took <;> cases took
      split at took' <;> cases took'
      exact Nat.succ_lt_succ (Nat.add_lt_add_left less at')

/-! ### What a search answers -/

namespace Matching

/-- A search fits and adds captures that meet `P`, or nothing was possible and the stack is left as
it was. -/
def Finds (P : Captures → Prop) (possible : Prop) (s : Stack) (answer : Bool × Stack) : Prop :=
  if answer.1 then ∃ more, P more ∧ answer.2.captures = s.captures ++ more
  else ¬ possible ∧ answer.2.captures = s.captures

theorem Finds.weaken {P Q : Captures → Prop} {possible possible' : Prop} {s : Stack}
    {answer : Bool × Stack} (h : Finds P possible s answer) (found : ∀ more, P more → Q more)
    (missed : possible' → possible) : Finds Q possible' s answer := by
  unfold Finds at h ⊢
  split
  · rename_i fits
    rw [if_pos fits] at h
    obtain ⟨more, holds, stack⟩ := h
    exact ⟨more, found more holds, stack⟩
  · rename_i fails
    rw [if_neg fails] at h
    exact ⟨fun possible => h.1 (missed possible), h.2⟩

/-- The first of the runs after which something fits, each failed one taken off the stack again. -/
theorem tryTakes_finds {go : Nat → Stack → Bool × Stack} {P : Nat → Captures → Prop}
    {Q : Nat → Prop} {options : List (Nat × Capture)}
    (goes : ∀ o ∈ options, ∀ s, Finds (P o.1) (Q o.1) s (go o.1 s)) (s : Stack) :
    Finds (fun more => ∃ before o after added, options = before ++ o :: after ∧
      (∀ earlier ∈ before, ¬ Q earlier.1) ∧ P o.1 added ∧ more = (name, o.2) :: added)
      (∃ o ∈ options, Q o.1) s (tryTakes go name options s) := by
  induction options generalizing s with
  | nil =>
    rw [tryTakes, Finds, if_neg Bool.false_ne_true]
    refine ⟨?_, rfl⟩
    rintro ⟨o, mem, -⟩
    cases mem
  | cons o others ih =>
    have tried := goes o List.mem_cons_self { s with captures := s.captures ++ [(name, o.2)] }
    rw [tryTakes]
    dsimp only
    by_cases fits : (go o.1 { s with captures := s.captures ++ [(name, o.2)] }).1 = true
    · rw [if_pos fits]
      rw [Finds, if_pos fits] at tried
      obtain ⟨added, holds, stack⟩ := tried
      rw [Finds, if_pos rfl]
      refine ⟨(name, o.2) :: added, ⟨[], o, others, added, rfl, ?_, holds, rfl⟩, ?_⟩
      · intro earlier mem
        cases mem
      · rw [stack, List.append_assoc, List.singleton_append]
    · rw [if_neg fits]
      rw [Finds, if_neg fits] at tried
      obtain ⟨fails, stack⟩ := tried
      have back : (go o.1 { s with captures := s.captures ++ [(name, o.2)] }).2.captures.dropLast =
          s.captures := by
        rw [stack, List.dropLast_concat]
      rw [back]
      refine (ih (fun o mem => goes o (List.mem_cons_of_mem _ mem)) _).weaken ?_ ?_
      · rintro more ⟨before, o', after, added, rfl, failed, holds, rfl⟩
        refine ⟨o :: before, o', after, added, rfl, ?_, holds, rfl⟩
        exact List.forall_mem_cons.mpr ⟨fails, failed⟩
      · rintro ⟨o', mem, holds⟩
        obtain rfl | mem := List.mem_cons.mp mem
        · exact absurd holds fails
        · exact ⟨o', mem, holds⟩

end Matching

/-! ### The cut a match takes -/

theorem cut_cons_iff : Cut (part :: parts) tokens runs ↔
    ∃ run rest, tokens = run ++ rest ∧ part.Admits run ∧ (part.takesRest → rest = []) ∧
      ∃ runs', Cut parts rest runs' ∧ runs = run :: runs' := by
  constructor
  · intro cut
    cases cut with
    | take admits all more => exact ⟨_, _, rfl, admits, all, _, more, rfl⟩
  · rintro ⟨run, rest, rfl, admits, all, runs', more, rfl⟩
    exact .take admits all more

theorem cut_nil_iff : Cut [] tokens runs ↔ tokens = [] ∧ runs = [] := by
  constructor
  · intro cut
    cases cut
    exact ⟨rfl, rfl⟩
  · rintro ⟨rfl, rfl⟩
    exact .done

/-- A part that takes one token leaves the choice to the parts after it. -/
theorem least_one {first : Token} {others : List Token} (fixed : part.stretches = false)
    (ends : part.takesRest = false) (fits : part.fits first)
    (least : Cut.Least parts others runs) :
    Cut.Least (part :: parts) (first :: others) ([first] :: runs) := by
  constructor
  · refine .take ((admits_iff fixed ends).mpr ⟨first, rfl, fits⟩) ?_ least.1
    rw [ends]
    exact nofun
  · intro runs' cut
    obtain ⟨-, -, more, others, rfl⟩ := (one_iff fixed ends).mp (cut_cons_iff.mp cut)
    rw [spans, spans, if_neg (by simp [fixed]), if_neg (by simp [fixed])]
    exact least.2 more others

/-- A slot's shortest run after which the tokens left can be cut. -/
theorem least_slot {before after : List (Nat × Capture)} {stop : Nat} {run rest : List Token}
    (offered : takes kind tokens sentence at' =
      before ++ (stop, kind.capture sentence run) :: after)
    (left : tokens.drop at' = run ++ rest) (admits : (Part.slot name kind).Admits run)
    (all : (Part.slot name kind).takesRest → rest = []) (stops : stop = at' + run.length)
    (failed : ∀ earlier ∈ before, ¬ ∃ runs, Cut parts (tokens.drop earlier.1) runs)
    (least : Cut.Least parts rest runs) :
    Cut.Least (.slot name kind :: parts) (tokens.drop at') (run :: runs) := by
  have ascend : (before ++ (stop, kind.capture sentence run) :: after).Pairwise
      fun a b => a.1 < b.1 := offered ▸ takes_ascend
  constructor
  · rw [left]
    exact .take admits all least.1
  · intro runs' cut
    obtain ⟨run', rest', split, admits', all', runs', more, rfl⟩ := cut_cons_iff.mp cut
    have mem : (_, kind.capture sentence run') ∈ takes kind tokens sentence at' :=
      (mem_takes name).mpr ⟨run', rest', split, admits', all', rfl, rfl⟩
    rw [offered] at mem
    obtain mem | mem := List.mem_append.mp mem
    · -- a run tried before, after which nothing could be cut
      refine absurd ⟨runs', ?_⟩ (failed _ mem)
      rw [← List.drop_drop, split, List.drop_left]
      exact more
    obtain same | mem := List.mem_cons.mp mem
    · -- the run itself
      have length : run'.length = run.length := by
        have stop' := congrArg Prod.fst same
        dsimp only at stop'
        omega
      obtain ⟨rfl, rfl⟩ := List.append_inj (split.symm.trans left) length
      rw [spans, spans]
      split
      · exact List.cons_le_cons _ (least.2 runs' more)
      · exact least.2 runs' more
    · -- a longer run
      have longer : run.length < run'.length := by
        have later := (List.pairwise_append.mp ascend).2.1
        have later := List.rel_of_pairwise_cons later mem
        dsimp only at later
        omega
      have stretches : (Part.slot name kind).stretches = true := by
        by_contra fixed
        rw [Bool.not_eq_true] at fixed
        by_cases ends : (Part.slot name kind).takesRest = true
        · obtain rfl := all ends
          obtain rfl := all' ends
          rw [split, List.append_nil, List.append_nil] at left
          rw [left] at longer
          omega
        · rw [Bool.not_eq_true] at ends
          obtain ⟨t, rfl, -⟩ := (admits_iff fixed ends).mp admits
          obtain ⟨t', rfl, -⟩ := (admits_iff fixed ends).mp admits'
          cases Nat.lt_irrefl _ longer
      rw [spans, spans, if_pos stretches, if_pos stretches]
      exact le_of_lt (List.Lex.rel longer)

/-- The runs of a cut follow from how many tokens the slots take that stretch. -/
theorem Cut.eq_of_spans {runs' : List (List Token)} (cut : Cut parts tokens runs)
    (cut' : Cut parts tokens runs') (same : spans parts runs = spans parts runs') :
    runs = runs' := by
  induction cut generalizing runs' with
  | done => exact (cut_nil_iff.mp cut').2.symm
  | @take part parts run rest runs admits all more ih =>
    obtain ⟨run', rest', split, admits', all', runs', more', rfl⟩ := cut_cons_iff.mp cut'
    have length : run.length = run'.length := by
      by_cases stretches : part.stretches = true
      · rw [spans, spans, if_pos stretches, if_pos stretches] at same
        exact (List.cons.inj same).1
      · rw [Bool.not_eq_true] at stretches
        by_cases ends : part.takesRest = true
        · obtain rfl := all ends
          obtain rfl := all' ends
          rw [List.append_nil, List.append_nil] at split
          rw [split]
        · rw [Bool.not_eq_true] at ends
          obtain ⟨t, rfl, -⟩ := (admits_iff stretches ends).mp admits
          obtain ⟨t', rfl, -⟩ := (admits_iff stretches ends).mp admits'
          rfl
    obtain ⟨rfl, rfl⟩ := List.append_inj split length
    have tails : spans parts runs = spans parts runs' := by
      rw [spans, spans] at same
      split at same
      · exact (List.cons.inj same).2
      · exact same
    rw [ih more' tails]

namespace Matching

/-- What is found where a word or a mark stands. -/
theorem one_finds {next : Bool × Stack} {s : Stack} (fixed : part.stretches = false)
    (ends : part.takesRest = false)
    (silent : ∀ run runs, capturesOf sentence (part :: parts) (run :: runs) =
      capturesOf sentence parts runs)
    (finds : at' + 1 ≤ tokens.length →
      Finds (fun more => ∃ runs, Cut.Least parts (tokens.drop (at' + 1)) runs ∧
          more = capturesOf sentence parts runs)
        (∃ runs, Cut parts (tokens.drop (at' + 1)) runs) s next) :
    Finds (fun more => ∃ runs, Cut.Least (part :: parts) (tokens.drop at') runs ∧
        more = capturesOf sentence (part :: parts) runs)
      (∃ runs, Cut (part :: parts) (tokens.drop at') runs) s
      (if (tokens[at']?.map part.fits).getD false then next else (false, s)) := by
  cases left : tokens.drop at' with
  | nil =>
    have none : tokens[at']? = none := by
      rw [← List.head?_drop, left]
      rfl
    rw [none, Option.map_none, Option.getD_none, if_neg Bool.false_ne_true, Finds,
      if_neg Bool.false_ne_true]
    refine ⟨?_, rfl⟩
    rintro ⟨runs, cut⟩
    obtain ⟨run, rest, split, admits, -⟩ := cut_cons_iff.mp cut
    exact admits.ne_nil (List.append_eq_nil_iff.mp split.symm).1
  | cons first others =>
    have head : tokens[at']? = some first := by
      rw [← List.head?_drop, left]
      rfl
    have tail : tokens.drop (at' + 1) = others := by
      rw [← List.drop_drop, left]
      rfl
    have inside : at' + 1 ≤ tokens.length := (List.getElem?_eq_some_iff.mp head).1
    rw [head, Option.map_some, Option.getD_some]
    by_cases fits : part.fits first = true
    · rw [if_pos fits]
      refine (finds inside).weaken ?_ ?_
      · rintro more ⟨runs, least, rfl⟩
        rw [tail] at least
        exact ⟨[first] :: runs, least_one fixed ends fits least, (silent _ _).symm⟩
      · rintro ⟨runs, cut⟩
        obtain ⟨-, -, more, cut', -⟩ := (one_iff fixed ends).mp (cut_cons_iff.mp cut)
        rw [tail]
        exact ⟨more, cut'⟩
    · rw [if_neg fits, Finds, if_neg Bool.false_ne_true]
      refine ⟨?_, rfl⟩
      rintro ⟨runs, cut⟩
      exact fits ((one_iff fixed ends).mp (cut_cons_iff.mp cut)).1

/-- What a search over the parts finds from a place on: the captures of the least cut of the tokens
left. -/
theorem go_finds (parts : List Part) (within : at' ≤ tokens.length) (s : Stack) :
    Finds (fun more => ∃ runs, Cut.Least parts (tokens.drop at') runs ∧
        more = capturesOf sentence parts runs)
      (∃ runs, Cut parts (tokens.drop at') runs) s (go tokens sentence parts at' s) := by
  induction parts generalizing at' s with
  | nil =>
    rw [go, Finds]
    split
    · rename_i ended
      have drained : tokens.drop at' = [] :=
        List.drop_eq_nil_of_le (Nat.le_of_eq (of_decide_eq_true ended).symm)
      refine ⟨[], ⟨[], ⟨cut_nil_iff.mpr ⟨drained, rfl⟩, ?_⟩, rfl⟩, (List.append_nil _).symm⟩
      intro runs' cut
      rw [(cut_nil_iff.mp cut).2]
    · rename_i left
      refine ⟨?_, rfl⟩
      rintro ⟨runs, cut⟩
      have long := List.drop_eq_nil_iff.mp (cut_nil_iff.mp cut).1
      exact left (decide_eq_true (Nat.le_antisymm within long))
  | cons part parts ih =>
    cases part with
    | lit word =>
      rw [go]
      have silent : ∀ run runs, capturesOf sentence (.lit word :: parts) (run :: runs) =
          capturesOf sentence parts runs := fun _ _ => rfl
      exact one_finds rfl rfl silent fun inside => ih inside _
    | alt words =>
      rw [go]
      have silent : ∀ run runs, capturesOf sentence (.alt words :: parts) (run :: runs) =
          capturesOf sentence parts runs := fun _ _ => rfl
      exact one_finds rfl rfl silent fun inside => ih inside _
    | punct mark =>
      rw [go]
      have silent : ∀ run runs, capturesOf sentence (.punct mark :: parts) (run :: runs) =
          capturesOf sentence parts runs := fun _ _ => rfl
      exact one_finds rfl rfl silent fun inside => ih inside _
    | slot name kind =>
      have stops : ∀ o ∈ takes kind tokens sentence at', o.1 ≤ tokens.length := by
        rintro ⟨stop, capture⟩ mem
        obtain ⟨run, rest, left, -, -, rfl, -⟩ := (mem_takes name).mp mem
        have size := congrArg List.length left
        rw [List.length_drop, List.length_append] at size
        dsimp only
        omega
      rw [go]
      refine (tryTakes_finds
        (P := fun stop more => ∃ runs, Cut.Least parts (tokens.drop stop) runs ∧
          more = capturesOf sentence parts runs)
        (Q := fun stop => ∃ runs, Cut parts (tokens.drop stop) runs)
        (fun o mem => ih (stops o mem)) _).weaken ?_ ?_
      · rintro more ⟨before, ⟨stop, capture⟩, after, added, offered, failed, found, rfl⟩
        obtain ⟨runs, least, rfl⟩ := found
        have mem : (stop, capture) ∈ takes kind tokens sentence at' := by
          rw [offered]
          exact List.mem_append_right _ List.mem_cons_self
        obtain ⟨run, rest, left, admits, all, rfl, rfl⟩ := (mem_takes name).mp mem
        rw [← List.drop_drop, left, List.drop_left] at least
        exact ⟨run :: runs, least_slot offered left admits all rfl failed least, rfl⟩
      · rintro ⟨runs, cut⟩
        obtain ⟨run, rest, left, admits, all, runs', more, rfl⟩ := cut_cons_iff.mp cut
        refine ⟨_, (mem_takes name).mpr ⟨run, rest, left, admits, all, rfl, rfl⟩, runs', ?_⟩
        rw [← List.drop_drop, left, List.drop_left]
        exact more

/-- A sentence matches exactly when its tokens can be cut into one run for each part, and what is
captured is what the slots say of the least cut. -/
theorem matchSentence_least_cut (pattern : Pattern) (tokens : List Token) (sentence : List Char)
    (furthest : Nat) :
    ((matchSentence pattern tokens sentence furthest).1.isSome ↔
      ∃ runs, Cut pattern.parts tokens runs) ∧
    ∀ captures, (matchSentence pattern tokens sentence furthest).1 = some captures ↔
      ∃ runs, Cut.Least pattern.parts tokens runs ∧
        captures = capturesOf sentence pattern.parts runs := by
  have found := @go_finds sentence tokens 0 pattern.parts (Nat.zero_le _) ⟨[], furthest⟩
  rw [List.drop_zero] at found
  unfold matchSentence
  dsimp only
  by_cases fits : (go tokens sentence pattern.parts 0 ⟨[], furthest⟩).1 = true
  · rw [Finds, if_pos fits] at found
    obtain ⟨captures, ⟨runs, least, rfl⟩, stack⟩ := found
    rw [if_pos fits, stack, List.nil_append]
    refine ⟨⟨fun _ => ⟨runs, least.1⟩, fun _ => rfl⟩, fun captures => ?_⟩
    constructor
    · intro same
      exact ⟨runs, least, (Option.some.inj same).symm⟩
    · rintro ⟨runs', least', rfl⟩
      have spans := le_antisymm (least.2 runs' least'.1) (least'.2 runs least.1)
      rw [Cut.eq_of_spans least.1 least'.1 spans]
  · rw [Finds, if_neg fits] at found
    rw [if_neg fits]
    refine ⟨⟨nofun, fun cut => absurd cut found.1⟩, fun captures => ?_⟩
    constructor
    · intro same
      cases same
    · rintro ⟨runs, least, -⟩
      exact absurd ⟨runs, least.1⟩ found.1

/-! ### The matcher without its stack -/

end Matching

end Hecks.Sentence
