import Hecks.Pattern.Parser

/-! The backtracking matcher over a parsed pattern, and the meaning it is measured against:
the spans of the text a pattern matches. -/
open Backtrack

namespace Hecks.Pattern

def classMatches (negate : Bool) (ranges : List (Char × Char)) (c : Char) : Bool :=
  (ranges.any fun r => r.1 ≤ c && c ≤ r.2) != negate

/-! ### The matcher -/

section

variable (text : List Char)

mutual

/-- One node of `match_from`; the nodes after it are the search that follows. -/
def matchNode : Node → Search text.length
  | .literal c => step fun ti => text[ti]? == some c
  | .any => step fun ti => text[ti]?.any (· != '\n')
  | .class negate ranges => step fun ti => text[ti]?.any (classMatches negate ranges)
  | .lineStart => stay fun ti => ti == 0 || text[ti - 1]? == some '\n'
  | .lineEnd => stay fun ti => ti == text.length || text[ti]? == some '\n'
  | .stringStart => stay (· == 0)
  | .stringEnd => stay (· == text.length)
  | .group inner => matchFrom inner
  | .alt branches => matchAny branches
  | .repeat node min max => again (matchNode node) min max 0

def matchFrom : List Node → Search text.length
  | [] => stay fun _ => true
  | node :: nodes => followedBy (matchNode node) (matchFrom nodes)

def matchAny : List (List Node) → Search text.length
  | [] => nowhere
  | branch :: branches => either (matchFrom branch) (matchAny branches)

end

/-- A match from `start`, whatever follows it. -/
def matchesAt (nodes : List Node) (start : Nat) : Bool :=
  if h : start ≤ text.length then matchFrom text nodes start h fun _ _ _ => true else false

end

/-- Only `\A` may skip to position 0; `^` can still match after a later newline. -/
def anchoredStart : List Node → Bool
  | .stringStart :: _ => true
  | _ => false

/-- Some match anywhere in the text; a pattern that does not parse has none. -/
def «matches» (usizeMax : Nat) (pattern text : String) : Bool :=
  match parse usizeMax pattern with
  | none => false
  | some nodes =>
      if anchoredStart nodes then matchesAt text.toList nodes 0
      else (List.range (text.toList.length + 1)).any (matchesAt text.toList nodes)

/-- The match dispatch asks for: `^` and `$` are the ends of the whole value. -/
def matchesWhole (usizeMax : Nat) (pattern text : String) : Bool :=
  «matches» usizeMax (wholeString pattern) text

/-! ### What a pattern means -/

section

-- `admits` restricts the pieces a repeat may be made of
variable (text : List Char) (admits : Nat → Nat → Prop)

mutual

/-- The node matches the characters from `i` up to `j`. A repeat matches when they split into
as many pieces as its bounds allow, each matched by its body. -/
def Spans : Node → Nat → Nat → Prop
  | .literal c, i, j => i < text.length ∧ text[i]? = some c ∧ j = i + 1
  | .any, i, j => i < text.length ∧ (∃ c, text[i]? = some c ∧ c ≠ '\n') ∧ j = i + 1
  | .class negate ranges, i, j =>
      i < text.length ∧ (∃ c, text[i]? = some c ∧ classMatches negate ranges c) ∧ j = i + 1
  | .lineStart, i, j => (i = 0 ∨ text[i - 1]? = some '\n') ∧ i = j
  | .lineEnd, i, j => (i = text.length ∨ text[i]? = some '\n') ∧ i = j
  | .stringStart, i, j => i = 0 ∧ i = j
  | .stringEnd, i, j => i = text.length ∧ i = j
  | .group inner, i, j => SpansAll inner i j
  | .alt branches, i, j => SpansAny branches i j
  | .repeat node min max, i, j => Repeats (fun a b => Spans node a b ∧ admits a b) min max i j

/-- The nodes in turn. -/
def SpansAll : List Node → Nat → Nat → Prop
  | [], i, j => i = j
  | node :: nodes, i, j => ∃ m, Spans node i m ∧ SpansAll nodes m j

/-- One of the branches. -/
def SpansAny : List (List Node) → Nat → Nat → Prop
  | [], _, _ => False
  | branch :: branches, i, j => SpansAll branch i j ∨ SpansAny branches i j

end

/-- The pattern matches some part of the text. -/
def Found (nodes : List Node) : Prop :=
  ∃ i j, i ≤ j ∧ j ≤ text.length ∧ SpansAll text admits nodes i j

end

/-- The pattern's meaning: any pieces will do, empty ones too. -/
abbrev Matches (text : List Char) (nodes : List Node) : Prop := Found text (fun _ _ => True) nodes

/-- The pattern matches with no empty iteration of any repeat. -/
abbrev MatchesAdvancing (text : List Char) (nodes : List Node) : Prop :=
  Found text (fun i j => i ≠ j) nodes

/-! ### The matcher finds the matches without empty iterations -/

section

variable {text : List Char} {admits admits' : Nat → Nat → Prop}

mutual

theorem Spans.mono (sub : ∀ i j, admits i j → admits' i j) (node : Node) {i j : Nat}
    (h : Spans text admits node i j) : Spans text admits' node i j := by
  cases node with
  | literal | any | «class» | lineStart | lineEnd | stringStart | stringEnd => exact h
  | group inner => exact SpansAll.mono sub inner h
  | alt branches => exact SpansAny.mono sub branches h
  | «repeat» node min max =>
    refine Repeats.mono ?_ h
    rintro a b ⟨piece, ok⟩
    exact ⟨Spans.mono sub node piece, sub a b ok⟩

theorem SpansAll.mono (sub : ∀ i j, admits i j → admits' i j) (nodes : List Node) {i j : Nat}
    (h : SpansAll text admits nodes i j) : SpansAll text admits' nodes i j := by
  cases nodes with
  | nil => exact h
  | cons node nodes =>
    obtain ⟨m, first, others⟩ := h
    exact ⟨m, Spans.mono sub node first, SpansAll.mono sub nodes others⟩

theorem SpansAny.mono (sub : ∀ i j, admits i j → admits' i j) (branches : List (List Node))
    {i j : Nat} (h : SpansAny text admits branches i j) : SpansAny text admits' branches i j := by
  cases branches with
  | nil => exact h
  | cons branch branches =>
    rcases h with this | other
    · exact .inl (SpansAll.mono sub branch this)
    · exact .inr (SpansAny.mono sub branches other)

end

theorem Found.mono (sub : ∀ i j, admits i j → admits' i j) {nodes : List Node}
    (h : Found text admits nodes) : Found text admits' nodes := by
  obtain ⟨i, j, hij, hj, spans⟩ := h
  exact ⟨i, j, hij, hj, spans.mono sub nodes⟩

end

section

variable (text : List Char)

mutual

/-- One case for each kind of node: the library's search finds the relation it spells. -/
theorem finds_matchNode (node : Node) :
    Finds (matchNode text node) (Spans text (fun i j => i ≠ j) node) := by
  cases node with
  | literal c => exact (finds_step _).congr fun i j => by simp [Spans]
  | any => exact (finds_step _).congr fun i j => by simp [Spans, Option.any_eq_true]
  | «class» negate ranges =>
    exact (finds_step _).congr fun i j => by simp [Spans, Option.any_eq_true]
  | lineStart => exact (finds_stay _).congr fun i j => by simp [Spans]
  | lineEnd => exact (finds_stay _).congr fun i j => by simp [Spans]
  | stringStart => exact (finds_stay _).congr fun i j => by simp [Spans]
  | stringEnd => exact (finds_stay _).congr fun i j => by simp [Spans]
  | group inner => exact finds_matchFrom inner
  | alt branches => exact finds_matchAny branches
  | «repeat» node min max => exact finds_repeat (finds_matchNode node) min max

theorem finds_matchFrom (nodes : List Node) :
    Finds (matchFrom text nodes) (SpansAll text (fun i j => i ≠ j) nodes) := by
  cases nodes with
  | nil => exact (finds_stay _).congr fun i j => by simp [SpansAll]
  | cons node nodes => exact finds_followedBy (finds_matchNode node) (finds_matchFrom nodes)

theorem finds_matchAny (branches : List (List Node)) :
    Finds (matchAny text branches) (SpansAny text (fun i j => i ≠ j) branches) := by
  cases branches with
  | nil => exact finds_nowhere
  | cons branch branches =>
    exact finds_either (finds_matchFrom branch) (finds_matchAny branches)

end

theorem matchesAt_iff {nodes : List Node} {start : Nat} :
    matchesAt text nodes start = true ↔
      ∃ j, start ≤ j ∧ j ≤ text.length ∧ SpansAll text (fun i j => i ≠ j) nodes start j := by
  have found := finds_matchFrom text nodes
  by_cases h : start ≤ text.length
  · simp only [matchesAt, h, dite_true, found.succeeds, and_true, exists_prop]
  · simp only [matchesAt, h, dite_false, Bool.false_eq_true, false_iff]
    rintro ⟨j, hij, hj, _⟩
    omega

end

/-- Behind a leading `\A` no later start can match. -/
theorem start_zero_of_anchored {text : List Char} {admits : Nat → Nat → Prop}
    {nodes : List Node} {i j : Nat} (anchored : anchoredStart nodes = true)
    (h : SpansAll text admits nodes i j) : i = 0 := by
  cases nodes with
  | nil => cases anchored
  | cons node nodes =>
    cases node with
    | stringStart =>
      obtain ⟨m, ⟨zero, _⟩, _⟩ := h
      exact zero
    | _ => cases anchored

theorem matches_iff_advancing {usizeMax : Nat} {pattern text : String} {nodes : List Node}
    (h : parse usizeMax pattern = some nodes) :
    «matches» usizeMax pattern text = true ↔ MatchesAdvancing text.toList nodes := by
  simp only [«matches», h]
  by_cases anchored : anchoredStart nodes = true
  · rw [if_pos anchored, matchesAt_iff]
    constructor
    · rintro ⟨j, hij, hj, spans⟩
      exact ⟨0, j, hij, hj, spans⟩
    · rintro ⟨i, j, hij, hj, spans⟩
      have zero := start_zero_of_anchored anchored spans
      subst zero
      exact ⟨j, hij, hj, spans⟩
  · rw [if_neg anchored, List.any_eq_true]
    constructor
    · rintro ⟨start, _, at'⟩
      obtain ⟨j, hij, hj, spans⟩ := (matchesAt_iff _).mp at'
      exact ⟨start, j, hij, hj, spans⟩
    · rintro ⟨i, j, hij, hj, spans⟩
      refine ⟨i, List.mem_range.mpr (by omega), (matchesAt_iff _).mpr ⟨j, hij, hj, spans⟩⟩

theorem Found.matches {text : List Char} {nodes : List Node} (h : MatchesAdvancing text nodes) :
    Matches text nodes :=
  h.mono fun _ _ _ => trivial

/-- The search and the whole-value search answer what the parsed pattern means exactly when
a text that matches also matches with no empty iteration: an empty iteration never counts
towards the minimum of a repeat. -/
theorem matcher_agrees_iff_no_empty_iteration_needed (usizeMax : Nat) (pattern text : String) :
    (∀ nodes, parse usizeMax pattern = some nodes →
      ((«matches» usizeMax pattern text = true ↔ Matches text.toList nodes) ↔
        (Matches text.toList nodes → MatchesAdvancing text.toList nodes))) ∧
    (∀ nodes, parse usizeMax (wholeString pattern) = some nodes →
      ((matchesWhole usizeMax pattern text = true ↔ Matches text.toList nodes) ↔
        (Matches text.toList nodes → MatchesAdvancing text.toList nodes))) := by
  have agrees : ∀ {p : String} {nodes : List Node}, parse usizeMax p = some nodes →
      ((«matches» usizeMax p text = true ↔ Matches text.toList nodes) ↔
        (Matches text.toList nodes → MatchesAdvancing text.toList nodes)) := by
    intro p nodes h
    rw [matches_iff_advancing h]
    constructor
    · intro same
      exact same.mpr
    · intro enough
      exact ⟨Found.matches, enough⟩
  constructor
  · intro nodes h
    exact agrees h
  · intro nodes h
    exact agrees h

/-- Two optional letters and a text with one: the second iteration would be empty. -/
theorem optional_pair_refused :
    ∃ nodes, parse 18446744073709551615 "^(a?){2}$" = some nodes ∧
      «matches» 18446744073709551615 "^(a?){2}$" "a" = false ∧ Matches "a".toList nodes := by
  refine ⟨[.lineStart, .repeat (.group [.repeat (.literal 'a') 0 (some 1)]) 2 (some 2), .lineEnd],
    by with_unfolding_all rfl, by decide +kernel, 0, 1, by decide, by decide, 0, ⟨.inl rfl, rfl⟩, 1, ?_,
    1, ⟨.inl rfl, rfl⟩, rfl⟩
  have one : SpansAll ['a'] (fun _ _ => True) [.repeat (.literal 'a') 0 (some 1)] 0 1 :=
    ⟨1, ⟨1, by decide, by simp, 1, ⟨by simp [Spans], trivial⟩, rfl⟩, rfl⟩
  have none' : SpansAll ['a'] (fun _ _ => True) [.repeat (.literal 'a') 0 (some 1)] 1 1 :=
    ⟨1, ⟨0, by decide, by simp, rfl⟩, rfl⟩
  exact ⟨2, by decide, by simp, 1, ⟨one, trivial⟩, 1, ⟨none', trivial⟩, rfl⟩

end Hecks.Pattern
