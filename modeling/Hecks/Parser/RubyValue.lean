import Mathlib
import Hecks.Lib.Decimal
import Hecks.Parser.Canonical

/-! Captured Ruby literals: their pinned spelling, and the reader of it. -/

namespace Hecks.Parser.RubyValue

open Text (isWhitespace)
open Canonical (trimmed)

/-- A captured Ruby literal. `bare` is a word the reader tolerates, spelled without quotes. -/
inductive Value where
  | nil
  | bool (b : Bool)
  | int (n : Int64)
  | float (f : Float.Model)
  | str (text : List Char)
  | symbol (name : List Char)
  | hash (pairs : List (List Char × Value))
  | array (items : List Value)
  | bare (text : List Char)

/-! ### The spelling -/

/-- Ruby keeps a digit after the point (`1.0`) where Rust prints `1`. -/
def formatRubyFloat (value : Float.Model) : List Char :=
  let text := Binary64.display value
  if Text.containsText "." text || Text.containsText "e" text || Text.containsText "inf" text ||
      Text.containsText "NaN" text then
    text.toList
  else text.toList ++ ['.', '0']

def escape (ch : Char) : List Char :=
  if ch = '"' then ['\\', '"'] else if ch = '\\' then ['\\', '\\'] else [ch]

def quote (text : List Char) : List Char := '"' :: text.flatMap escape ++ ['"']

/-- `join(", ")`. -/
def joined : List (List Char) → List Char
  | [] => []
  | [text] => text
  | text :: texts => text ++ ',' :: ' ' :: joined texts

mutual

def render : Value → List Char
  | .nil => "nil".toList
  | .bool b => (toString b).toList
  | .int n => (toString n.toInt).toList
  | .float f => formatRubyFloat f
  | .symbol name => ':' :: name
  | .str text => quote text
  | .bare text => text
  | .hash pairs => '\x7b' :: joined (renderPairs pairs) ++ ['\x7d']
  | .array items => '[' :: joined (renderItems items) ++ [']']

def renderPairs : List (List Char × Value) → List (List Char)
  | [] => []
  | (key, held) :: pairs => (key ++ ':' :: ' ' :: render held) :: renderPairs pairs

def renderItems : List Value → List (List Char)
  | [] => []
  | item :: items => render item :: renderItems items

end

/-! ### Quoted text -/

/-- `char::from_u32`, the replacement character where there is none. -/
def fromU32 (code : Nat) : Char := if code.isValidChar then Char.ofNat code else '\uFFFD'

def octalDigit? (c : Char) : Option Nat :=
  if '0' ≤ c ∧ c ≤ '7' then some (c.toNat - '0'.toNat) else none

/-- Up to `max` digits of one base, with the value so far and the text behind them. -/
def readDigits (digit? : Char → Option Nat) (base : Nat) :
    Nat → Option Nat → List Char → Option Nat × List Char
  | max + 1, code, c :: cs =>
      match digit? c with
      | some d => readDigits digit? base max (some (code.getD 0 * base + d)) cs
      | none => (code, c :: cs)
  | _, code, cs => (code, cs)

theorem readDigits_length (digit? : Char → Option Nat) (base max : Nat) (code : Option Nat)
    (cs : List Char) : (readDigits digit? base max code cs).2.length ≤ cs.length := by
  fun_induction readDigits digit? base max code cs with
  | case1 max code c cs d _ ih => exact ih.trans (Nat.le_succ _)
  | case2 max code c cs _ => exact le_rfl
  | case3 max code cs _ => exact le_rfl

theorem readDigits_lt {digit? : Char → Option Nat} {base max code : Nat} {cs rest : List Char}
    (h : readDigits digit? base max none cs = (some code, rest)) : rest.length < cs.length := by
  match max, cs with
  | 0, cs => simp [readDigits] at h
  | max + 1, [] => simp [readDigits] at h
  | max + 1, c :: cs =>
    rw [readDigits] at h
    split at h
    next d _ =>
      have kept := readDigits_length digit? base max
        (some ((none : Option Nat).getD 0 * base + d)) cs
      rw [h] at kept
      exact Nat.lt_succ_of_le kept
    · cases h

/-- The codepoints of `\u{H H ...}` behind the brace, blanks between them. -/
def readCodepoints (cs : List Char) : List Char × List Char :=
  match h : readDigits Text.hexDigit? 16 6 none (cs.dropWhile (· = ' ')) with
  | (some code, rest) => (fromU32 code :: (readCodepoints rest).1, (readCodepoints rest).2)
  | (none, rest) => ([], rest)
termination_by cs.length
decreasing_by
  all_goals
    have := readDigits_lt h
    have := (List.dropWhile_sublist (p := (· = ' ')) (l := cs)).length_le
    omega

/-- `read_unicode_escape`: what `\u` stands for, and the text behind it. -/
def readUnicodeEscape : List Char → List Char × List Char
  | '\x7b' :: cs =>
      let (points, rest) := readCodepoints cs
      match rest with
      | '\x7d' :: rest => (points, rest)
      | rest => (points, rest)
  | cs =>
      match readDigits Text.hexDigit? 16 4 none cs with
      | (some code, rest) => ([fromU32 code], rest)
      | (none, rest) => (['u'], rest)

/-- What an escape in a double-quoted body stands for, by the character behind the backslash. -/
def readEscape (next : Char) (cs : List Char) : List Char × List Char :=
  match next with
  | 'a' => (['\x07'], cs)
  | 'b' => (['\x08'], cs)
  | 'e' => (['\x1b'], cs)
  | 'f' => (['\x0c'], cs)
  | 'n' => (['\n'], cs)
  | 'r' => (['\r'], cs)
  | 's' => ([' '], cs)
  | 't' => (['\t'], cs)
  | 'v' => (['\x0b'], cs)
  | '\n' => ([], cs)
  | 'x' =>
      match readDigits Text.hexDigit? 16 2 none cs with
      | (some code, rest) => ([fromU32 code], rest)
      | (none, rest) => (['x'], rest)
  | 'u' => readUnicodeEscape cs
  | other =>
      match octalDigit? other with
      | some first =>
          let (code, rest) := readDigits octalDigit? 8 2 (some first) cs
          ([fromU32 (code.getD 0 % 256)], rest)
      | none => ([other], cs)

theorem readCodepoints_length (cs : List Char) : (readCodepoints cs).2.length ≤ cs.length := by
  fun_induction readCodepoints cs with
  | case1 cs code rest h ih =>
    have := readDigits_lt h
    have := (List.dropWhile_sublist (p := (· = ' ')) (l := cs)).length_le
    simp only at ih ⊢
    omega
  | case2 cs rest h =>
    have kept := readDigits_length Text.hexDigit? 16 6 none (cs.dropWhile (· = ' '))
    rw [h] at kept
    exact kept.trans (List.dropWhile_sublist _).length_le

theorem readUnicodeEscape_length (cs : List Char) :
    (readUnicodeEscape cs).2.length ≤ cs.length := by
  unfold readUnicodeEscape
  split
  next cs =>
    have kept := readCodepoints_length cs
    dsimp only
    split
    next rest closed =>
      rw [closed] at kept
      simp only [List.length_cons] at kept ⊢
      omega
    · simp only [List.length_cons]
      omega
  · have kept := readDigits_length Text.hexDigit? 16 4 none cs
    split
    all_goals
      next read =>
        rw [read] at kept
        exact kept

theorem readEscape_length (next : Char) (cs : List Char) :
    (readEscape next cs).2.length ≤ cs.length := by
  unfold readEscape
  split
  case h_11 =>
    have kept := readDigits_length Text.hexDigit? 16 2 none cs
    split
    all_goals
      next read =>
        rw [read] at kept
        exact kept
  case h_12 => exact readUnicodeEscape_length cs
  case h_13 =>
    split
    next first _ => exact readDigits_length octalDigit? 8 2 (some first) cs
    · exact le_rfl
  all_goals exact le_rfl

/-- `unescape_double_quoted_inner`. -/
def unescapeDouble : List Char → List Char
  | [] => []
  | '\\' :: [] => []
  | '\\' :: next :: cs => (readEscape next cs).1 ++ unescapeDouble (readEscape next cs).2
  | ch :: cs => ch :: unescapeDouble cs
termination_by cs => cs.length
decreasing_by
  · have := readEscape_length next cs
    simp only [List.length_cons]
    omega
  · exact Nat.lt_succ_self _

/-- `unescape_single_quoted_inner`: only the backslash and the quote are escapes. -/
def unescapeSingle : List Char → List Char
  | [] => []
  | '\\' :: '\\' :: cs => '\\' :: unescapeSingle cs
  | '\\' :: '\'' :: cs => '\'' :: unescapeSingle cs
  | ch :: cs => ch :: unescapeSingle cs

/-- The text up to the quote that closes a literal, and what follows it. -/
def closeQuote (quote : Char) : List Char → Option (List Char × List Char)
  | [] => none
  | '\\' :: [] => none
  | '\\' :: escaped :: cs =>
      (closeQuote quote cs).map fun (inner, rest) => ('\\' :: escaped :: inner, rest)
  | ch :: cs =>
      if ch = quote then some ([], cs)
      else (closeQuote quote cs).map fun (inner, rest) => (ch :: inner, rest)

theorem closeQuote_lt {quote : Char} {cs inner rest : List Char}
    (h : closeQuote quote cs = some (inner, rest)) : rest.length < cs.length := by
  fun_induction closeQuote quote cs generalizing inner with
  | case1 => cases h
  | case2 => cases h
  | case3 escaped cs ih =>
    obtain ⟨⟨inner', rest'⟩, closed, same⟩ := Option.map_eq_some_iff.mp h
    cases same
    have := ih closed
    simp only [List.length_cons]
    omega
  | case4 cs =>
    cases h
    exact Nat.lt_succ_self _
  | case5 ch cs _ _ _ ih =>
    obtain ⟨⟨inner', rest'⟩, closed, same⟩ := Option.map_eq_some_iff.mp h
    cases same
    have := ih closed
    simp only [List.length_cons]
    omega

def isQuote (c : Char) : Bool := c = '"' || c = '\''

/-- `scan_adjacent_strings`: the literals at the front joined, and the text behind the last. -/
def scanAdjacent : List Char → Option (List Char × List Char)
  | [] => none
  | mark :: cs =>
      if isQuote mark then
        match h : closeQuote mark cs with
        | none => none
        | some (inner, rest) =>
            let text := if mark = '"' then unescapeDouble inner else unescapeSingle inner
            -- another literal may stand behind blanks
            if (rest.dropWhile isWhitespace).head?.any isQuote then
              (scanAdjacent (rest.dropWhile isWhitespace)).map fun (more, rest) =>
                (text ++ more, rest)
            else some (text, rest)
      else none
termination_by cs => cs.length
decreasing_by
  have := closeQuote_lt h
  have := (List.dropWhile_sublist (p := isWhitespace) (l := rest)).length_le
  simp only [List.length_cons]
  omega

/-! ### The reader -/

/-- An opening or a closing bracket changes the depth. -/
def deepened (depth : Int) (ch : Char) : Int :=
  let depth := if ch = '\x7b' || ch = '[' || ch = '(' then depth + 1 else depth
  if ch = '\x7d' || ch = ']' || ch = ')' then depth - 1 else depth

/-- Splits on commas outside quotes and brackets, with the item read so far. -/
def splitFrom (depth : Int) (quoting escaping : Bool) (current : List Char) :
    List Char → List (List Char)
  | [] => [current]
  | ch :: cs =>
      if escaping then splitFrom depth quoting false (current ++ [ch]) cs
      else if quoting && ch = '\\' then splitFrom depth quoting true (current ++ [ch]) cs
      else if ch = '"' then splitFrom depth (!quoting) false (current ++ [ch]) cs
      else if quoting then splitFrom depth quoting false (current ++ [ch]) cs
      else if ch = ',' && deepened depth ch = 0 then
        current :: splitFrom (deepened depth ch) quoting false [] cs
      else splitFrom (deepened depth ch) quoting false (current ++ [ch]) cs

/-- `split_items`: blanks around an item and empty items left out. -/
def splitItems (body : List Char) : List (List Char) :=
  ((splitFrom 0 false false [] body).map trimmed).filter (· ≠ [])

def isInteger (raw : List Char) : Bool :=
  let body := if raw.head? = some '-' then raw.tail else raw
  !body.isEmpty && body.all Char.isDigit

def isFloat (raw : List Char) : Bool :=
  let body := if raw.head? = some '-' then raw.tail else raw
  match Text.splitOnceChars ['.'] body with
  | none => false
  | some (int, frac) =>
      !int.isEmpty && !frac.isEmpty && int.all Char.isDigit && frac.all Char.isDigit

/-- Stands between the two characters. -/
def between (opening closing : Char) (raw : List Char) : Bool :=
  decide (2 ≤ raw.length) && raw.head? = some opening && raw.getLast? = some closing

/-- `&raw[1..raw.len() - 1]`. -/
def inner (raw : List Char) : List Char := raw.tail.dropLast

/-- What the reader makes of a text that is no hash and no array. -/
def readScalar (raw : List Char) : Option Value :=
  if raw.isEmpty || raw = "nil".toList then some .nil
  else if raw = "true".toList then some (.bool true)
  else if raw = "false".toList then some (.bool false)
  else
    match (if isInteger raw then Text.parseI64 (String.ofList raw) else none) with
    | some n => some (.int n)
    | none =>
        match (if isFloat raw then Binary64.parse (String.ofList raw) else none) with
        | some f => some (.float f)
        | none =>
            match raw with
            | ':' :: name => some (.symbol name)
            | raw =>
                match (if raw.head?.any isQuote then scanAdjacent raw else none) with
                | some (text, []) => some (.str text)
                | _ =>
                    if between '"' '"' raw then some (.str (unescapeDouble (inner raw)))
                    else if between '\'' '\'' raw then
                      some (.str (unescapeSingle (inner raw)))
                    else none

/-- `item.split_once(':')`, the whole item as key where there is no colon. -/
def splitPair (item : List Char) : List Char × List Char :=
  (Text.splitOnceChars [':'] item).getD (item, [])

theorem splitFrom_length (depth : Int) (quoting escaping : Bool) (current cs : List Char) :
    ∀ item ∈ splitFrom depth quoting escaping current cs,
      item.length ≤ current.length + cs.length := by
  induction cs generalizing depth quoting escaping current with
  | nil => simp [splitFrom]
  | cons ch cs ih =>
    have longer : ∀ depth quoting escaping,
        ∀ item ∈ splitFrom depth quoting escaping (current ++ [ch]) cs,
          item.length ≤ current.length + (ch :: cs).length := by
      intro depth quoting escaping item mem
      have := ih depth quoting escaping (current ++ [ch]) item mem
      simp only [List.length_append, List.length_cons, List.length_nil] at this ⊢
      omega
    rw [splitFrom]
    split_ifs
    all_goals try exact longer _ _ _
    -- an item ends at a comma
    intro item mem
    rcases List.mem_cons.mp mem with rfl | mem
    · exact Nat.le_add_right _ _
    · have := ih _ _ _ _ item mem
      simp only [List.length_nil, List.length_cons] at this ⊢
      omega

theorem trimmed_length (text : List Char) : (trimmed text).length ≤ text.length := by
  unfold trimmed
  exact (List.rdropWhile_prefix _ _).length_le.trans (List.dropWhile_sublist _).length_le

theorem splitItems_length {body item : List Char} (mem : item ∈ splitItems body) :
    item.length ≤ body.length := by
  obtain ⟨raw, inside, rfl⟩ := List.mem_map.mp (List.mem_of_mem_filter mem)
  have := splitFrom_length 0 false false [] body raw inside
  have := trimmed_length raw
  simp only [List.length_nil] at *
  omega

theorem splitOnceChars_length {sep text before after : List Char}
    (h : Text.splitOnceChars sep text = some (before, after)) : after.length ≤ text.length := by
  induction text generalizing before with
  | nil =>
    unfold Text.splitOnceChars at h
    split at h
    · cases h
      exact le_rfl
    · cases h
  | cons c text ih =>
    unfold Text.splitOnceChars at h
    split at h
    · cases h
      rw [List.length_drop]
      omega
    · obtain ⟨⟨before', after'⟩, found, same⟩ := Option.map_eq_some_iff.mp h
      cases same
      exact (ih found).trans (Nat.le_succ _)

theorem splitPair_length (item : List Char) : (splitPair item).2.length ≤ item.length := by
  unfold splitPair
  cases h : Text.splitOnceChars [':'] item with
  | none => exact Nat.zero_le _
  | some halves => exact splitOnceChars_length h

theorem inner_lt {opening closing : Char} {raw : List Char}
    (h : between opening closing raw = true) : (inner raw).length < raw.length := by
  unfold between at h
  unfold inner
  simp only [Bool.and_eq_true, decide_eq_true_eq] at h
  rw [List.length_dropLast, List.length_tail]
  omega

def read (text : List Char) : Value :=
  match readScalar (trimmed text) with
  | some value => value
  | none =>
      if hash : between '\x7b' '\x7d' (trimmed text) then
        .hash ((splitItems (inner (trimmed text))).attach.map fun item =>
          (trimmed (splitPair item.1).1, read (trimmed (splitPair item.1).2)))
      else if array : between '[' ']' (trimmed text) then
        .array ((splitItems (inner (trimmed text))).attach.map fun item => read (trimmed item.1))
      else .bare (trimmed text)
termination_by text.length
decreasing_by
  · have := trimmed_length (splitPair item.1).2
    have := splitPair_length item.1
    have := splitItems_length item.2
    have := inner_lt hash
    have := trimmed_length text
    omega
  · have := trimmed_length item.1
    have := splitItems_length item.2
    have := inner_lt array
    have := trimmed_length text
    omega

theorem read_eq (text : List Char) :
    read text =
      match readScalar (trimmed text) with
      | some value => value
      | none =>
          if between '\x7b' '\x7d' (trimmed text) then
            .hash ((splitItems (inner (trimmed text))).map fun item =>
              (trimmed (splitPair item).1, read (trimmed (splitPair item).2)))
          else if between '[' ']' (trimmed text) then
            .array ((splitItems (inner (trimmed text))).map fun item => read (trimmed item))
          else .bare (trimmed text) := by
  rw [read]
  cases readScalar (trimmed text) with
  | some value => rfl
  | none =>
    simp only [List.map_attach_eq_pmap, List.pmap_eq_map]
    rfl

end Hecks.Parser.RubyValue
