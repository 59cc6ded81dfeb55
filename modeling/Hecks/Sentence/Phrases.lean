import Hecks.Lib.Reading

/-! A sentence cut into words, marks and quoted runs, the phrases an author may say, and how a
sentence is matched against them. -/
namespace Hecks.Sentence

/-- `char::is_whitespace` -/
def isWhitespace (c : Char) : Bool :=
  [9, 10, 11, 12, 13, 32, 133, 160, 5760, 8192, 8193, 8194, 8195, 8196, 8197, 8198, 8199, 8200,
    8201, 8202, 8232, 8233, 8239, 8287, 12288].contains c.toNat

inductive Kind where
  | word
  | punct (mark : Char)
  | quoted
  deriving DecidableEq

/-- `start` and `stop` count the characters before the token begins and before what follows it. -/
structure Token where
  kind : Kind
  text : List Char
  start : Nat
  stop : Nat
  deriving DecidableEq

def Token.isWord (t : Token) : Bool := t.kind = .word

/-- Whether a word goes on with this character. -/
def inWord (c : Char) : Bool := !isWhitespace c && c ≠ ',' && c ≠ ':' && c ≠ '"'

/-- `at'` counts the characters read; no more than `fuel` are left. -/
def tokenizeFrom : (fuel at' : Nat) → List Char → Except Nat (List Token)
  | 0, _, _ => .ok []
  | _ + 1, _, [] => .ok []
  | fuel + 1, at', c :: cs =>
      if isWhitespace c then tokenizeFrom fuel (at' + 1) cs
      else if c = ',' || c = ':' then
        (tokenizeFrom fuel (at' + 1) cs).map (⟨.punct c, [c], at', at' + 1⟩ :: ·)
      else if c = '"' then
        let text := cs.takeWhile (· ≠ '"')
        match cs.dropWhile (· ≠ '"') with
        | [] => .error at'
        | _ :: rest =>
            let stop := at' + text.length + 2
            (tokenizeFrom fuel stop rest).map (⟨.quoted, text, at', stop⟩ :: ·)
      else
        let text := c :: cs.takeWhile inWord
        let stop := at' + text.length
        (tokenizeFrom fuel stop (cs.dropWhile inWord)).map (⟨.word, text, at', stop⟩ :: ·)

/-- The tokens of a sentence, or where a quote opened that is never closed. -/
def tokenize (sentence : List Char) : Except Nat (List Token) :=
  tokenizeFrom sentence.length 0 sentence

/-- The places of a file a sentence may stand in. -/
inductive Context where
  | file
  | vision
  | provides
  | domain
  | aggregate
  | fields
  | has
  | valueObject
  | lifecycle
  | command
  | query
  | condition
  | process
  | handler
  | report
  | policy
  deriving DecidableEq

/-- One sentence an author may write. -/
structure PhraseRow where
  id : String
  context : Context
  pattern : String
  status : String

/-- A retired phrase is refused like any unknown sentence. -/
def PhraseRow.live (row : PhraseRow) : Bool := ["", "admitted", "deprecated"].contains row.status

/-- The table, but for the rows of examples files. -/
def phrases : List PhraseRow := [
  ⟨"domain", .file, "Domain: {name:words}", "admitted"⟩,
  ⟨"classification", .vision, "This is a {kind:word} domain", "admitted"⟩,
  ⟨"namespace", .vision, "Its module is {name:rest}", "admitted"⟩,
  ⟨"version", .vision, "Its version is {version:word}", "admitted"⟩,
  ⟨"attaches", .vision, "It attaches to {contexts:list}", "admitted"⟩,
  ⟨"provides", .vision, "It provides {capability:word}:", "admitted"⟩,
  ⟨"provision", .provides, "{key:word} is {verb:rest}", "admitted"⟩,
  ⟨"aggregate", .domain, "Aggregate: {name:words}", "admitted"⟩,
  ⟨"identity", .aggregate,
    "(a|an|the) {owner:words} is identified by (its|their) {fields:list}", "admitted"⟩,
  ⟨"has", .aggregate, "It has:", "admitted"⟩,
  ⟨"value_object", .aggregate,
    "(a|an|the) {name:words} has a value: {type:words}", "admitted"⟩,
  ⟨"value_object_with", .aggregate,
    "(a|an|the) {name:words} has a value: {type:words}, {options:rest}", "admitted"⟩,
  ⟨"closed_set", .aggregate, "(a|an|the) {name:words} is one of: {values:list}", "admitted"⟩,
  ⟨"closed_set_named", .aggregate,
    "(a|an|the) {name:words} has (a|an) {attr:words} that is one of: {values:list}", "admitted"⟩,
  ⟨"value_fields", .aggregate, "(a|an|the) {name:words} has:", "admitted"⟩,
  ⟨"field", .fields, "(a|an|the|some) {name:words}: {type:words}", "admitted"⟩,
  ⟨"field_with", .fields,
    "(a|an|the|some) {name:words}: {type:words}, {options:rest}", "admitted"⟩,
  ⟨"field_rule", .fields, "Rule {description:text} holds when {condition:rest}", "admitted"⟩,
  ⟨"field_member", .fields, "Member {pairs:rest}", "admitted"⟩,
  ⟨"lifecycle", .aggregate,
    "Lifecycle: {field:words}, starting as {state:word}", "admitted"⟩,
  ⟨"command", .aggregate, "Command: {name:words}", "admitted"⟩,
  ⟨"query", .aggregate, "Query: {name:words}", "admitted"⟩,
  ⟨"entity", .aggregate, "Entity: {name:words}", "admitted"⟩,
  ⟨"aggregate_provenance", .aggregate, "Its provenance is {value:rest}", "admitted"⟩,
  ⟨"aggregate_rule", .aggregate,
    "Rule {description:text} holds when {condition:rest}", "admitted"⟩,
  ⟨"precondition", .aggregate,
    "Precondition {description:text} holds when {condition:rest}", "admitted"⟩,
  ⟨"projected", .aggregate,
    "It shows {name:words} as the {remote:words} of the {reference:words}", "admitted"⟩,
  ⟨"attribute", .has, "(a|an|the|some) {name:words}: {type:words}", "admitted"⟩,
  ⟨"attribute_with", .has,
    "(a|an|the|some) {name:words}: {type:words}, {options:rest}", "admitted"⟩,
  ⟨"rule", .valueObject, "Rule {description:text} holds when {condition:rest}", "admitted"⟩,
  ⟨"transition", .lifecycle,
    "{command:words} moves (a|an|the) {owner:words} from {from:word} to {to:word}", "admitted"⟩,
  ⟨"marks", .lifecycle, "Mark {mark:word}: {states:list}", "admitted"⟩,
  ⟨"goal", .command, "Goal: {goal:rest}", "admitted"⟩,
  ⟨"role", .command, "Who: {role:words}", "admitted"⟩,
  ⟨"acts_on", .command, "It acts on (a|an) existing {owner:words}", "admitted"⟩,
  ⟨"arguments", .command, "When {names:list} (is|are) given", "admitted"⟩,
  ⟨"given", .command, "Given {description:text} holds when {condition:rest}", "admitted"⟩,
  ⟨"sets", .command, "(Then|And) {names:list} (is|are) set", "admitted"⟩,
  ⟨"set_to", .command,
    "(Then|And) the {target:words} is set to the {source:words}", "admitted"⟩,
  ⟨"set_to_literal", .command,
    "(Then|And) the {target:words} is set to {value:rest}", "admitted"⟩,
  ⟨"set_to_state", .command,
    "(Then|And) the {target:words} is set to what the {source:words} was", "admitted"⟩,
  ⟨"set_to_result", .command,
    "(Then|And) the {target:words} is set to the result of {code:rest}", "admitted"⟩,
  ⟨"go_up", .command,
    "(Then|And) the {target:words} goes up by the {source:words}", "admitted"⟩,
  ⟨"go_up_by", .command,
    "(Then|And) the {target:words} goes up by {value:rest}", "admitted"⟩,
  ⟨"go_down", .command,
    "(Then|And) the {target:words} goes down by the {source:words}", "admitted"⟩,
  ⟨"go_down_by", .command,
    "(Then|And) the {target:words} goes down by {value:rest}", "admitted"⟩,
  ⟨"multiply", .command,
    "(Then|And) the {target:words} is multiplied by the {source:words}", "admitted"⟩,
  ⟨"remove", .command,
    "(Then|And) the {source:words} is removed from the {target:words}", "admitted"⟩,
  ⟨"add_row", .command,
    "(Then|And) a row is added to the {target:words} with {fields:rest}", "admitted"⟩,
  ⟨"delegates", .command,
    "(Then|And) the {entity:words} is told to {command:words} with {fields:rest}", "admitted"⟩,
  ⟨"corrects", .command,
    "(Then|And) {event:event} is corrected with {fields:rest}", "admitted"⟩,
  ⟨"clamp", .command,
    "(Then|And) the {target:words} is kept between {low:int} and {high:int}", "admitted"⟩,
  ⟨"from_states", .command, "It can only happen from {states:list}", "admitted"⟩,
  ⟨"idempotent", .command, "It is safe to deliver twice", "admitted"⟩,
  ⟨"command_provenance", .command, "Its provenance is {value:rest}", "admitted"⟩,
  ⟨"ensures", .command,
    "Afterwards {description:text} holds when {condition:rest}", "admitted"⟩,
  ⟨"takes", .command, "It takes:", "admitted"⟩,
  ⟨"announces", .command, "(Then|And) {event:event} is announced", "admitted"⟩,
  ⟨"where_is", .query, "Where the {field:words} is {value:rest}", "admitted"⟩,
  ⟨"where_is_not", .query, "Where the {field:words} is not {value:rest}", "admitted"⟩,
  ⟨"where_over", .query, "Where the {field:words} is more than {value:rest}", "admitted"⟩,
  ⟨"where_at_least", .query, "Where the {field:words} is at least {value:rest}", "admitted"⟩,
  ⟨"where_under", .query, "Where the {field:words} is less than {value:rest}", "admitted"⟩,
  ⟨"where_at_most", .query, "Where the {field:words} is at most {value:rest}", "admitted"⟩,
  ⟨"where_has", .query, "Where the {field:words} contains {value:rest}", "admitted"⟩,
  ⟨"where_in", .query, "Where the {field:words} is one of {values:list}", "admitted"⟩,
  ⟨"query_takes", .query, "It takes:", "admitted"⟩,
  ⟨"query_limit", .query, "Limited to {n:int}", "admitted"⟩,
  ⟨"query_skip", .query, "Skipping the first {n:int}", "admitted"⟩,
  ⟨"query_cursor", .query,
    "A caller walks it a page at a time by the {field:words}", "admitted"⟩,
  ⟨"query_nulls", .query, "Empty values come {position:word}", "admitted"⟩,
  ⟨"query_access", .query, "Access is checked by {policy:words}", "admitted"⟩,
  ⟨"query_access_for", .query,
    "Access is checked by {policy:words} for each {tenant:words}", "admitted"⟩,
  ⟨"query_inspect", .query, "It can be inspected as {mode:word}", "admitted"⟩,
  ⟨"where_none_in", .query,
    "Where the {field:words} has no {aggregate:words} in {state:word}", "admitted"⟩,
  ⟨"query_returns", .query, "It returns {type:words}", "admitted"⟩,
  ⟨"query_returns_list", .query, "It returns list of {type:words}", "admitted"⟩,
  ⟨"order", .query, "Ordered by {path:path}, {direction:word}", "admitted"⟩,
  ⟨"not_empty", .condition, "the {field:words} is not empty", "admitted"⟩,
  ⟨"at_least", .condition, "the {field:words} is at least {n:int}", "admitted"⟩,
  ⟨"equals", .condition, "the {field:words} is {value:word}", "admitted"⟩,
  ⟨"expression", .condition, "this is true: {code:rest}", "admitted"⟩,
  ⟨"policy", .domain, "Policy: {name:words}", "admitted"⟩,
  ⟨"report", .domain, "Report: {name:words}", "admitted"⟩,
  ⟨"process", .domain, "Process: {name:words}", "admitted"⟩,
  ⟨"process_matched", .process, "It is matched up by {path:path}", "admitted"⟩,
  ⟨"process_starts", .process, "It starts when {event:event} is announced", "admitted"⟩,
  ⟨"process_ends", .process, "It ends when {event:event} is announced", "admitted"⟩,
  ⟨"process_when", .process,
    "When {event:event} is announced and it is {from:word}, it moves to {to:word}", "admitted"⟩,
  ⟨"process_when_refused", .process,
    "When it is refused and it is {from:word}, it moves to {to:word}", "admitted"⟩,
  ⟨"process_tell", .handler,
    "Then the {owner:words} is told to {command:words}", "admitted"⟩,
  ⟨"process_tell_with", .handler,
    "Then the {owner:words} is told to {command:words} with {fields:rest}", "admitted"⟩,
  ⟨"process_undo", .handler,
    "If that is refused, the {owner:words} is told to {command:words}", "admitted"⟩,
  ⟨"process_undo_with", .handler,
    "If that is refused, the {owner:words} is told to {command:words} with {fields:rest}",
    "admitted"⟩,
  ⟨"includes", .report, "It includes (a|an|the) {name:words}", "admitted"⟩,
  ⟨"includes_as", .report,
    "It includes (a|an|the) {name:words} as (a|an|the) {as:words}", "admitted"⟩,
  ⟨"about", .report, "It is about (a|an|the) {target:words}", "admitted"⟩,
  ⟨"about_as", .report,
    "It is about (a|an|the) {target:words} as (a|an|the) {as:words}", "admitted"⟩,
  ⟨"groups", .report, "It groups by {fields:list}", "admitted"⟩,
  ⟨"counts", .report, "It counts them", "admitted"⟩,
  ⟨"sums", .report, "It adds up the {field:words}", "admitted"⟩,
  ⟨"averages", .report, "It averages the {field:words}", "admitted"⟩,
  ⟨"lowest", .report, "It finds the lowest {field:words}", "admitted"⟩,
  ⟨"highest", .report, "It finds the highest {field:words}", "admitted"⟩,
  ⟨"median", .report, "It finds the median {field:words}", "admitted"⟩,
  ⟨"percentile", .report,
    "It finds the {at:text} percentile of the {field:words}", "admitted"⟩,
  ⟨"any_holds", .report, "It checks if any {field:words} holds", "admitted"⟩,
  ⟨"all_hold", .report, "It checks if all {field:words} hold", "admitted"⟩,
  ⟨"report_where", .report, "Where {condition:rest}", "admitted"⟩,
  ⟨"report_order", .report, "Ordered by {path:path}, {direction:word}", "admitted"⟩,
  ⟨"report_limit", .report, "Limited to {n:int}", "admitted"⟩,
  ⟨"report_skip", .report, "Skipping the first {n:int}", "admitted"⟩,
  ⟨"report_cursor", .report,
    "A caller walks it a page at a time by the {field:words}", "admitted"⟩,
  ⟨"report_nulls", .report, "Empty values come {position:word}", "admitted"⟩,
  ⟨"report_access", .report, "Access is checked by {policy:words}", "admitted"⟩,
  ⟨"report_access_for", .report,
    "Access is checked by {policy:words} for each {tenant:words}", "admitted"⟩,
  ⟨"report_inspect", .report, "It can be inspected as {mode:word}", "admitted"⟩,
  ⟨"whenever", .policy, "Whenever {event:event} is announced", "admitted"⟩,
  ⟨"whenever_by", .policy,
    "Whenever {event:event} is announced by (a|an) {owner:words}", "admitted"⟩,
  ⟨"whenever_outside", .policy, "Whenever the outside announces {event:event}", "admitted"⟩,
  ⟨"for_each", .policy, "For each {query:words} of the {owner:words}", "admitted"⟩,
  ⟨"only_when", .policy, "Only when {condition:rest}", "admitted"⟩,
  ⟨"policy_tell", .policy, "Then the {owner:words} is told to {command:words}", "admitted"⟩,
  ⟨"policy_across", .policy, "It crosses into the {domain:words} domain", "admitted"⟩,
  ⟨"policy_undelivered", .policy, "It is expected to go undelivered", "admitted"⟩,
  ⟨"with_same", .policy, "With the {key:words}", "admitted"⟩,
  ⟨"with_from", .policy, "With the {key:words} from the {from:words}", "admitted"⟩,
  ⟨"with_as", .policy, "With the {key:words} as {value:rest}", "admitted"⟩,
  ⟨"runs_with", .policy, "Then {command:words} runs with {fields:list}", "admitted"⟩,
  ⟨"runs", .policy, "Then {command:words} runs", "admitted"⟩,
  ⟨"asked_with", .policy, "Then {need:words} is asked with {fields:list}", "admitted"⟩,
  ⟨"asked", .policy, "Then {need:words} is asked", "admitted"⟩]

/-- What a slot of a pattern takes from a sentence. -/
inductive SlotKind where
  | words
  | word
  | text
  | int
  | list
  | rest
  | path
  | event
  deriving DecidableEq

def SlotKind.read : List Char → Option SlotKind
  | ['w', 'o', 'r', 'd', 's'] => some words
  | ['w', 'o', 'r', 'd'] => some word
  | ['t', 'e', 'x', 't'] => some text
  | ['i', 'n', 't'] => some int
  | ['l', 'i', 's', 't'] => some list
  | ['r', 'e', 's', 't'] => some rest
  | ['p', 'a', 't', 'h'] => some path
  | ['e', 'v', 'e', 'n', 't'] => some event
  | _ => none

inductive Part where
  | lit (word : List Char)
  | alt (words : List (List Char))
  | punct (mark : Char)
  | slot (name : List Char) (kind : SlotKind)
  deriving DecidableEq

structure Pattern where
  parts : List Part
  source : List Char

/-- `value` is the text as written, a list's items joined; `offset` counts the characters before the
first token taken. -/
structure Capture where
  value : List Char := []
  items : List (List Char) := []
  offset : Nat := 0
  deriving DecidableEq

def lowercase (text : List Char) : List Char := text.map Char.toLower

/-- `eq_ignore_ascii_case` -/
def sameWord (a b : List Char) : Bool := lowercase a == lowercase b

/-- `split` at every such character. -/
def splitAt (mark : Char) : List Char → List (List Char)
  | [] => [[]]
  | c :: cs =>
      if c = mark then [] :: splitAt mark cs
      else
        match splitAt mark cs with
        | [] => [[c]]
        | piece :: pieces => (c :: piece) :: pieces

def joinWith (mark : List Char) (pieces : List (List Char)) : List Char := mark.intercalate pieces

def readSlot (body : List Char) : Except String Part :=
  match body.dropWhile (· ≠ ':') with
  | [] => .error s!"slot \x7b{String.ofList body}\x7d names no kind"
  | _ :: kind =>
      match SlotKind.read kind with
      | some held => .ok (.slot (body.takeWhile (· ≠ ':')) held)
      | none =>
          .error (s!"slot \x7b{String.ofList body}\x7d has the unknown kind " ++
            s!"'{String.ofList kind}'")

/-- Whether a pattern's literal word goes on with this character. -/
def inLiteral (c : Char) : Bool :=
  !(isWhitespace c || c = ',' || c = ':' || c = '\x7b' || c = '(')

/-- The parts of a pattern's text, of which no more than `fuel` characters are left. -/
def parseParts : Nat → List Char → Except String (List Part)
  | 0, _ => .ok []
  | _ + 1, [] => .ok []
  | fuel + 1, c :: cs =>
      if isWhitespace c then parseParts fuel cs
      else if c = ',' || c = ':' then (parseParts fuel cs).map (.punct c :: ·)
      else if c = '\x7b' then do
        let part ← readSlot (cs.takeWhile (· ≠ '\x7d'))
        let parts ← parseParts fuel ((cs.dropWhile (· ≠ '\x7d')).drop 1)
        return part :: parts
      else if c = '(' then
        let words := splitAt '|' (cs.takeWhile (· ≠ ')'))
        (parseParts fuel ((cs.dropWhile (· ≠ ')')).drop 1)).map
          (.alt (words.map lowercase) :: ·)
      else
        (parseParts fuel (cs.dropWhile inLiteral)).map
          (.lit (lowercase (c :: cs.takeWhile inLiteral)) :: ·)

def Pattern.parse (text : List Char) : Except String Pattern := do
  let parts ← parseParts text.length text
  if parts.isEmpty then throw "an empty pattern"
  return ⟨parts, text⟩

/-- How many fixed words and marks the pattern holds. -/
def Pattern.specificity (p : Pattern) : Nat :=
  (p.parts.filter fun part => match part with
    | .slot _ _ => false
    | _ => true).length

/-- The pattern with each slot shown as its name in angle brackets. -/
def renderFrom : Nat → List Char → List Char
  | 0, _ => []
  | _ + 1, [] => []
  | fuel + 1, c :: cs =>
      if c = '\x7b' then
        let body := cs.takeWhile (· ≠ '\x7d')
        '<' :: body.takeWhile (· ≠ ':') ++
          '>' :: renderFrom fuel ((cs.dropWhile (· ≠ '\x7d')).drop 1)
      else c :: renderFrom fuel cs

def Pattern.render (p : Pattern) : List Char := renderFrom p.source.length p.source

def Pattern.literals (p : Pattern) : List (List Char) :=
  p.parts.filterMap fun part => match part with
    | .lit word => some word
    | _ => none

/-- Each slot's capture, in the order the pattern names them. -/
abbrev Captures := List (List Char × Capture)

def isAsciiUpper (c : Char) : Bool := 'A' ≤ c && c ≤ 'Z'

def isAsciiLower (c : Char) : Bool := 'a' ≤ c && c ≤ 'z'

def isAsciiDigit (c : Char) : Bool := '0' ≤ c && c ≤ '9'

def isPath (text : List Char) : Bool :=
  (splitAt '.' text).all fun segment =>
    match segment with
    | [] => false
    | first :: others => (isAsciiLower first || first = '_') &&
        others.all fun c => isAsciiLower c || isAsciiDigit c || c = '_'

def isEvent (text : List Char) : Bool :=
  match text with
  | [] => false
  | first :: _ => isAsciiUpper first &&
      text.all fun c => isAsciiUpper c || isAsciiLower c || isAsciiDigit c

def isArticle (word : List Char) : Bool :=
  [['a'], ['a', 'n'], ['t', 'h', 'e']].contains (lowercase word)

/-- A run of tokens cut at `and` and commas. -/
def listWords : List Token → List (List (List Char))
  | [] => [[]]
  | t :: ts =>
      if t.kind = .punct ',' || sameWord t.text ['a', 'n', 'd'] then [] :: listWords ts
      else
        match listWords ts with
        | [] => [[t.text]]
        | words :: others => (t.text :: words) :: others

/-- The items of a list slot, each without its leading article. -/
def listItems (run : List Token) : List (List Char) :=
  ((listWords run).map fun words =>
    joinWith [' '] (match words with
      | [] => []
      | first :: others => if isArticle first then others else words)).filter (!·.isEmpty)

def single (value : List Char) (offset : Nat) : Capture := ⟨value, [], offset⟩

/-- How many of the tokens from `at'` on are words, or with `commas` words and commas. -/
def runLength (commas : Bool) (tokens : List Token) (at' : Nat) : Nat :=
  ((tokens.drop at').takeWhile fun t => t.isWord || (commas && t.kind = .punct ',')).length

/-- The runs a slot may take from `at'` on, shortest first: where each ends, and what it takes. -/
def takes (kind : SlotKind) (tokens : List Token) (sentence : List Char) (at' : Nat) :
    List (Nat × Capture) :=
  match tokens[at']?, tokens.getLast? with
  | some first, some last =>
      let one := (at' + 1, single first.text first.start)
      match kind with
      | .text => if first.kind = .quoted then [one] else []
      | .word => if first.isWord then [one] else []
      | .int =>
          if first.isWord && !first.text.isEmpty && first.text.all isAsciiDigit then [one] else []
      | .event => if first.isWord && isEvent first.text then [one] else []
      | .path => if first.isWord && isPath first.text then [one] else []
      | .rest =>
          let value := (sentence.drop first.start).take (last.stop - first.start)
          [(tokens.length, single value first.start)]
      | .words => (List.range (runLength false tokens at')).map fun n =>
          let run := (tokens.drop at').take (n + 1)
          (at' + n + 1, single (joinWith [' '] (run.map (·.text))) first.start)
      | .list => (List.range (runLength true tokens at')).filterMap fun n =>
          let run := (tokens.drop at').take (n + 1)
          let items := listItems run
          if (run.getLast?.map Token.isWord).getD false && !items.isEmpty then
            some (at' + n + 1, ⟨joinWith [',', ' '] items, items, first.start⟩)
          else none
  | _, _ => []

/-- Matches the parts from token `at'` on; `furthest` is the highest token any attempt reached. -/
def matchParts (tokens : List Token) (sentence : List Char) :
    List Part → Nat → Captures → Nat → Option Captures × Nat
  | [], at', captures, furthest =>
      (if at' = tokens.length then some captures else none, max furthest at')
  | .lit word :: rest, at', captures, furthest =>
      if (tokens[at']?.map fun t => t.isWord && sameWord t.text word).getD false then
        matchParts tokens sentence rest (at' + 1) captures (max furthest at')
      else (none, max furthest at')
  | .alt words :: rest, at', captures, furthest =>
      if (tokens[at']?.map fun t => t.isWord && words.any (sameWord t.text)).getD false then
        matchParts tokens sentence rest (at' + 1) captures (max furthest at')
      else (none, max furthest at')
  | .punct mark :: rest, at', captures, furthest =>
      if (tokens[at']?.map fun t => decide (t.kind = .punct mark)).getD false then
        matchParts tokens sentence rest (at' + 1) captures (max furthest at')
      else (none, max furthest at')
  | .slot name kind :: rest, at', captures, furthest =>
      (takes kind tokens sentence at').foldl (fun tried taken =>
        match tried.1 with
        | some found => (some found, tried.2)
        | none =>
            matchParts tokens sentence rest taken.1 (captures ++ [(name, taken.2)]) tried.2)
        (none, max furthest at')

def matchSentence (pattern : Pattern) (tokens : List Token) (sentence : List Char) :
    Option Captures × Nat :=
  matchParts tokens sentence pattern.parts 0 [] 0

/-- One admitted phrase with its pattern compiled. -/
structure Phrase where
  id : String
  context : Context
  pattern : Pattern

abbrev Grammar := List Phrase

def PhraseRow.compile (row : PhraseRow) : Except String Phrase :=
  match Pattern.parse row.pattern.toList with
  | .ok pattern => .ok ⟨row.id, row.context, pattern⟩
  | .error reason => .error s!"phrase '{row.id}' does not compile: {reason}"

/-- The phrases of the table, or why one does not compile. -/
def Grammar.load : Except String Grammar := (phrases.filter (·.live)).mapM PhraseRow.compile

def Grammar.inContext (g : Grammar) (context : Context) : List Phrase :=
  g.filter (·.context = context)

/-- Why a sentence matched nothing: where it stopped fitting, and what would have fitted. -/
structure Unmatched where
  column : Nat
  suggestions : List (List Char)

/-- How many of a pattern's fixed words appear, in order, among the sentence's words. -/
def sharedWords (pattern : Pattern) (tokens : List Token) : Nat :=
  let words := (tokens.filter Token.isWord).map fun t => lowercase t.text
  (pattern.literals.foldl (fun (held : List (List Char) × Nat) literal =>
    match held.1.dropWhile (· ≠ literal) with
    | [] => held
    | _ :: later => (later, held.2 + 1)) (words, 0)).2

/-- What a round of attempts has come to. -/
structure Attempts where
  best : Option (Phrase × Captures) := none
  scored : List (Nat × List Char) := []
  reach : Nat := 0
  reachTokens : List Token := []

def tryPhrase (tokens : List Token) (sentence : List Char) (tried : Attempts) (phrase : Phrase) :
    Attempts :=
  let outcome := matchSentence phrase.pattern tokens sentence
  let better := match tried.best with
    | none => true
    | some held => held.1.pattern.specificity < phrase.pattern.specificity
  let further := tried.reach < outcome.2 || tried.reachTokens.isEmpty
  { best := match outcome.1 with
      | some found => if better then some (phrase, found) else tried.best
      | none => tried.best
    scored := tried.scored ++
      [(outcome.2 * 100 + sharedWords phrase.pattern tokens, phrase.pattern.render)]
    reach := if further then outcome.2 else tried.reach
    reachTokens := if further then tokens else tried.reachTokens }

/-- The attempts in turn, up to the first that fits; `none` where a quote is not closed. -/
def tryAttempts (phrases : List Phrase) : List (List Char) → Attempts → Option Attempts
  | [], tried => some tried
  | sentence :: others, tried =>
      match tokenize sentence with
      | .error _ => none
      | .ok tokens =>
          let after := phrases.foldl (tryPhrase tokens sentence) tried
          if after.best.isSome then some after else tryAttempts phrases others after

/-- `dedup_by`, on the texts. -/
def dedupTexts : List (Nat × List Char) → List (Nat × List Char)
  | [] => []
  | a :: others =>
      match dedupTexts others with
      | [] => [a]
      | b :: rest => if a.2 = b.2 then a :: rest else a :: b :: rest

/-- A sentence may end in a full stop, which is no part of its last word. -/
def stripFullStop (text : List Char) : List (List Char) :=
  if text.getLast? = some '.' then [text.dropLast, text] else [text]

/-- The one of these phrases that fits: the most specific when several do. -/
def matchAmong (phrases : List Phrase) (text : List Char) (baseCol : Nat) :
    Except Unmatched (Phrase × Captures) :=
  match tryAttempts phrases (stripFullStop text) {} with
  | none => .error ⟨baseCol, ["a quote that is closed".toList]⟩
  | some tried =>
      match tried.best with
      | some found => .ok found
      | none =>
          let ranked := tried.scored.mergeSort fun a b => decide (b.1 ≤ a.1)
          let offset := match tried.reachTokens[tried.reach]? with
            | some t => t.start
            | none => text.length
          .error ⟨baseCol + offset, ((dedupTexts ranked).take 3).map (·.2)⟩

/-- The one phrase of the context that fits. -/
def matchText (g : Grammar) (context : Context) (text : List Char) (baseCol : Nat) :
    Except Unmatched (Phrase × Captures) := matchAmong (g.inContext context) text baseCol

/-! ### The loaded grammar -/

/-- Rows whose patterns all compile. -/
inductive Compiles : List PhraseRow → Prop
  | nil : Compiles []
  | cons {id status : String} {context : Context} {pattern : List Char} {rows : List PhraseRow}
      (here : (Pattern.parse pattern).toOption.isSome = true) (later : Compiles rows) :
      Compiles (⟨id, context, String.ofList pattern, status⟩ :: rows)

theorem phrases_compile : Compiles phrases := by
  unfold phrases
  repeat (refine .cons (by decide) ?_)
  exact .nil

theorem compile_of_isSome {id status : String} {context : Context} {pattern : List Char}
    (here : (Pattern.parse pattern).toOption.isSome = true) : ∃ phrase,
    PhraseRow.compile ⟨id, context, String.ofList pattern, status⟩ = .ok phrase := by
  rw [PhraseRow.compile, String.toList_ofList]
  cases parsed : Pattern.parse pattern with
  | error reason =>
    rw [parsed] at here
    cases here
  | ok held => exact ⟨_, rfl⟩

theorem Compiles.mapM {rows : List PhraseRow} (h : Compiles rows) (P : PhraseRow → Bool) :
    ∃ g, (rows.filter P).mapM PhraseRow.compile = .ok g := by
  induction h with
  | nil => exact ⟨[], rfl⟩
  | @cons id status context pattern rows here later ih =>
    obtain ⟨others, compiled⟩ := ih
    rw [List.filter_cons]
    split
    · obtain ⟨phrase, first⟩ := compile_of_isSome here
      rw [List.mapM_cons, first, compiled]
      exact ⟨_, rfl⟩
    · exact ⟨others, compiled⟩

/-- Every phrase of the table compiles. -/
theorem load_ok : ∃ g, Grammar.load = .ok g := phrases_compile.mapM _

theorem compile_context {row : PhraseRow} {phrase : Phrase} (compiled : row.compile = .ok phrase) :
    phrase.context = row.context := by
  unfold PhraseRow.compile at compiled
  split at compiled
  · cases compiled
    rfl
  · cases compiled

/-- A context's phrases are compiled from its own rows. -/
theorem inContext_of_load {g : Grammar} (loaded : Grammar.load = .ok g) (context : Context) :
    ((phrases.filter (·.live)).filter (·.context = context)).mapM PhraseRow.compile =
      .ok (g.inContext context) := by
  unfold Grammar.load at loaded
  generalize phrases.filter (·.live) = rows at loaded
  induction rows generalizing g with
  | nil =>
    cases loaded
    rfl
  | cons row rows ih =>
    rw [List.mapM_cons] at loaded
    obtain ⟨phrase, compiled, loaded⟩ := Reading.bind_eq_ok.mp loaded
    obtain ⟨others, rest, loaded⟩ := Reading.bind_eq_ok.mp loaded
    cases loaded
    have same := compile_context compiled
    by_cases here : row.context = context
    · simp only [Grammar.inContext, List.filter_cons, here, same.trans here, decide_true, if_true,
        List.mapM_cons, compiled, ih rest]
      rfl
    · have apart : ¬ phrase.context = context := same ▸ here
      simp only [Grammar.inContext, List.filter_cons, here, apart, decide_false,
        Bool.false_eq_true, if_false, ih rest]

/-- What a match comes to: the phrase's name and what its slots took. -/
def matchSaid (outcome : Except Unmatched (Phrase × Captures)) : Option (String × Captures) :=
  outcome.toOption.map fun held => (held.1.id, held.2)

theorem ok_of_matchSaid {outcome : Except Unmatched (Phrase × Captures)} {id : String}
    {found : Captures} (said : matchSaid outcome = some (id, found)) :
    ∃ phrase, outcome = .ok (phrase, found) ∧ phrase.id = id := by
  cases outcome with
  | error => cases said
  | ok held =>
    cases said
    exact ⟨held.1, rfl, rfl⟩

/-- What the rows of a context make of a text, the loaded grammar makes of it. -/
theorem matchText_of_load {g : Grammar} (loaded : Grammar.load = .ok g) {context : Context}
    {text : List Char} {baseCol : Nat} {id : String} {found : Captures}
    (said : (((phrases.filter (·.live)).filter (·.context = context)).mapM
      PhraseRow.compile).toOption.map (fun held => matchSaid (matchAmong held text baseCol)) =
        some (some (id, found))) :
    ∃ phrase, matchText g context text baseCol = .ok (phrase, found) ∧ phrase.id = id := by
  rw [inContext_of_load loaded] at said
  exact ok_of_matchSaid (Option.some.inj said)

end Hecks.Sentence
