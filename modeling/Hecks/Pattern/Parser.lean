import Hecks.Lib.Backtrack
import Hecks.Lib.Text
import Hecks.Lib.Reading

/-! The matcher behind `pattern:`, for the dialect the bluebook grammar admits: its parser,
the backtracking search over a parsed pattern, and what a pattern means. -/
namespace Hecks.Pattern

open Reading (Read)

/-- `^` and `$` hold at line boundaries, `\A` and `\z` at the ends of the text. -/
inductive Node where
  | literal (c : Char)
  | any
  | class (negate : Bool) (ranges : List (Char × Char))
  | lineStart
  | lineEnd
  | stringStart
  | stringEnd
  | group (inner : List Node)
  | alt (branches : List (List Node))
  | repeat (node : Node) (min : Nat) (max : Option Nat)
deriving Inhabited

/-! ### The parser -/

/-- `whole_string`: `^` as `\A` and `$` as `\z` outside bracket classes, from `index` on. -/
def wholeStringFrom (inClass : Bool) (index classStart : Nat) : List Char → List Char
  | [] => []
  | '\\' :: [] => ['\\']
  | '\\' :: c :: cs => '\\' :: c :: wholeStringFrom inClass (index + 2) classStart cs
  | c :: cs =>
      if inClass then
        c :: wholeStringFrom (c != ']' || index == classStart) (index + 1) classStart cs
      else if c = '[' then
        c :: wholeStringFrom true (index + 1)
          (if cs.head? = some '^' then index + 2 else index + 1) cs
      else
        (match c with
          | '^' => ['\\', 'A']
          | '$' => ['\\', 'z']
          | other => [other]) ++ wholeStringFrom false (index + 1) classStart cs

def wholeString (pattern : String) : String :=
  String.ofList (wholeStringFrom false 0 0 pattern.toList)

def escapeChar : Char → Char
  | 't' => '\t'
  | 'n' => '\n'
  | 'r' => '\r'
  | other => other

theorem length_le_self (cs : List Char) : cs.length ≤ cs.length := Nat.le_refl _

theorem length_le_cons (c : Char) (cs : List Char) : cs.length ≤ (c :: cs).length := Nat.le_succ _

/-- A class member starting with `c`, an escape reading the next character. -/
def classChar (c : Char) (cs : List Char) : Option (Read Char cs.length) :=
  if c = '\\' then
    match cs with
    | [] => none
    | e :: rest => some ⟨escapeChar e, rest, length_le_cons e rest⟩
  else some ⟨c, cs, length_le_self cs⟩

/-- The range that may follow a member: `-` and an upper end other than `]`. -/
def rangeEnd (lo : Char) : (cs : List Char) → Option (Read (Char × Char) cs.length)
  | '-' :: hi :: cs =>
      if hi = ']' then some ⟨(lo, lo), '-' :: hi :: cs, Nat.le_refl _⟩
      else (classChar hi cs).map fun r =>
        ⟨(lo, r.value), r.rest, by have := r.within; simp only [List.length_cons]; omega⟩
  | cs => some ⟨(lo, lo), cs, length_le_self cs⟩

/-- The members of a class up to the `]` that closes it; a leading `]` is a member. -/
def classRanges (first : Bool) : (cs : List Char) → Option (Read (List (Char × Char)) cs.length)
  | [] => none
  | c :: cs =>
      if c = ']' ∧ first = false then some ⟨[], cs, Nat.le_succ _⟩
      else
        match classChar c cs with
        | none => none
        | some lo =>
            match rangeEnd lo.value lo.rest with
            | none => none
            | some range =>
                have shorter : range.rest.length ≤ cs.length := by
                  have := range.within
                  have := lo.within
                  omega
                (classRanges false range.rest).map fun r =>
                  ⟨range.value :: r.value, r.rest, by
                    have := r.within
                    simp only [List.length_cons]
                    omega⟩
termination_by cs => cs.length

/-- `parse_class`, past the `[`. -/
def parseClass : (cs : List Char) → Option (Read Node cs.length)
  | '^' :: cs =>
      (classRanges true cs).map fun r =>
        ⟨.class true r.value, r.rest, Nat.le_succ_of_le r.within⟩
  | cs => (classRanges true cs).map fun r => ⟨.class false r.value, r.rest, r.within⟩

section

-- the largest `usize` of the machine: 2 ^ 32 - 1 on wasm32, 2 ^ 64 - 1 on the hosts
variable (usizeMax : Nat)

/-- `parse_digits`: a run of digits whose value fits a `usize`. -/
def parseDigits (cs : List Char) : Option (Read Nat cs.length) :=
  let digits := cs.takeWhile fun c => (Text.digit? c).isSome
  if digits = [] then none
  else
    (Text.digitsValue digits 0).bind fun n =>
      if n ≤ usizeMax then
        some ⟨n, cs.dropWhile fun c => (Text.digit? c).isSome, (List.dropWhile_suffix _).length_le⟩
      else none

/-- The `}` that closes a quantifier of these bounds. -/
def closeBrace (bounds : Nat × Option Nat) :
    (cs : List Char) → Option (Read (Nat × Option Nat) cs.length)
  | '}' :: cs => some ⟨bounds, cs, Nat.le_succ _⟩
  | _ => none

/-- What follows the lower bound of a quantifier. -/
def upperBound (min : Nat) : (cs : List Char) → Option (Read (Nat × Option Nat) cs.length)
  | '}' :: cs => some ⟨(min, some min), cs, Nat.le_succ _⟩
  | ',' :: '}' :: cs => some ⟨(min, none), cs, Nat.le_add_right _ 2⟩
  | ',' :: cs =>
      (parseDigits usizeMax cs).bind fun max =>
        (closeBrace (min, some max.value) max.rest).map fun r =>
          ⟨r.value, r.rest, Nat.le_succ_of_le (Nat.le_trans r.within max.within)⟩
  | _ => none

/-- Past the `{`; `none` when this is no quantifier and the brace is a literal. -/
def parseBoundedRepeat (cs : List Char) : Option (Read (Nat × Option Nat) cs.length) :=
  (parseDigits usizeMax cs).bind fun min =>
    (upperBound usizeMax min.value min.rest).map fun r =>
      ⟨r.value, r.rest, Nat.le_trans r.within min.within⟩

/-- The quantifier after an atom, if there is one. -/
def quantified (atom : Node) : (cs : List Char) → Read Node cs.length
  | '*' :: cs => ⟨.repeat atom 0 none, cs, Nat.le_succ _⟩
  | '+' :: cs => ⟨.repeat atom 1 none, cs, Nat.le_succ _⟩
  | '?' :: cs => ⟨.repeat atom 0 (some 1), cs, Nat.le_succ _⟩
  | '{' :: cs =>
      match parseBoundedRepeat usizeMax cs with
      | some r => ⟨.repeat atom r.value.1 r.value.2, r.rest, Nat.le_succ_of_le r.within⟩
      | none => ⟨atom, '{' :: cs, Nat.le_refl _⟩
  | cs => ⟨atom, cs, length_le_self cs⟩

mutual

/-- `alternation := concat ('|' concat)*`. -/
def parseAlt (cs : List Char) : Option (Read (List Node) cs.length) :=
  match parseConcat cs with
  | none => none
  | some first =>
      match h : first.rest with
      | '|' :: rest =>
          have shorter : rest.length + 1 ≤ cs.length := by simpa [h] using first.within
          (parseBranches ('|' :: rest)).map fun r =>
            ⟨[.alt (first.value :: r.value)], r.rest, Nat.le_trans r.within shorter⟩
      | _ => some first
termination_by 5 * cs.length + 4

/-- The branches after the first, each behind its `|`. -/
def parseBranches (cs : List Char) : Option (Read (List (List Node)) cs.length) :=
  match cs with
  | '|' :: rest =>
      match parseConcat rest with
      | none => none
      | some branch =>
          have := branch.within
          (parseBranches branch.rest).map fun r =>
            ⟨branch.value :: r.value, r.rest, by
              have := r.within
              simp only [List.length_cons]
              omega⟩
  | cs => some ⟨[], cs, Nat.le_refl _⟩
termination_by 5 * cs.length + 3

/-- `concat := repeat*`, ending at `|` or `)`. -/
def parseConcat (cs : List Char) : Option (Read (List Node) cs.length) :=
  match cs with
  | [] => some ⟨[], [], Nat.le_refl _⟩
  | c :: rest =>
      if c = '|' ∨ c = ')' then some ⟨[], c :: rest, Nat.le_refl _⟩
      else
        match parseRepeat (c :: rest) with
        | none => none
        | some node =>
            have shorter : node.rest.length ≤ rest.length := node.within
            (parseConcat node.rest).map fun r =>
              ⟨node.value :: r.value, r.rest, by
                have := r.within
                simp only [List.length_cons]
                omega⟩
termination_by 5 * cs.length + 2

/-- `repeat := atom ('*' | '+' | '?' | '{' n (',' m?)? '}')?`. -/
def parseRepeat (cs : List Char) : Option (Read Node cs.tail.length) :=
  match parseAtom cs with
  | none => none
  | some atom =>
      let r := quantified usizeMax atom.value atom.rest
      some ⟨r.value, r.rest, Nat.le_trans r.within atom.within⟩
termination_by 5 * cs.length + 1

def parseAtom (cs : List Char) : Option (Read Node cs.tail.length) :=
  match cs with
  | [] => none
  | '.' :: rest => some ⟨.any, rest, Nat.le_refl _⟩
  | '^' :: rest => some ⟨.lineStart, rest, Nat.le_refl _⟩
  | '$' :: rest => some ⟨.lineEnd, rest, Nat.le_refl _⟩
  | '(' :: rest =>
      match parseAlt rest with
      | some ⟨inner, ')' :: rest', h⟩ =>
          some ⟨.group inner, rest', Nat.le_of_succ_le h⟩
      | _ => none
  | '[' :: rest => parseClass rest
  | '\\' :: 'A' :: rest => some ⟨.stringStart, rest, Nat.le_succ _⟩
  | '\\' :: 'z' :: rest => some ⟨.stringEnd, rest, Nat.le_succ _⟩
  | '\\' :: 'Z' :: rest => some ⟨.stringEnd, rest, Nat.le_succ _⟩
  | '\\' :: c :: rest => some ⟨.literal (escapeChar c), rest, Nat.le_succ _⟩
  | '\\' :: [] => none
  | c :: rest => some ⟨.literal c, rest, Nat.le_refl _⟩
termination_by 5 * cs.length + 0

end

/-- The whole pattern, or nothing. -/
def parse (pattern : String) : Option (List Node) :=
  match parseAlt usizeMax pattern.toList with
  | some ⟨nodes, [], _⟩ => some nodes
  | _ => none

end

end Hecks.Pattern
