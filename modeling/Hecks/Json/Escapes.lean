import Hecks.Json.Rereading

/-! The spellings of a text as a JSON string: each character as itself, by a short escape, by an
escape of its code, or, beyond the basic plane, by the escapes of a surrogate pair. -/
open Reading Hecks.Json.Parser Hecks.Json.Grammar

namespace Hecks.Json

/-- Four hexadecimal digits, in either case. -/
structure Hex4 where
  digits : List Char
  four : digits.length = 4
  code : ℕ
  spelled : Text.hexValue digits 0 = some code

/-- How one character is spelled. -/
inductive Spelling where
  | raw (c : Char) (plain : rfc8259.plain c)
  | short (e c : Char) (named : shortEscape e = some c)
  | code (hex : Hex4) (c : Char) (spelled : hex.code = c.toNat)
  | pair (high low : Hex4) (c : Char) (beyond : 0x10000 ≤ c.toNat)
      (highUnit : high.code = 0xD800 + (c.toNat - 0x10000) / 0x400)
      (lowUnit : low.code = 0xDC00 + (c.toNat - 0x10000) % 0x400)

namespace Spelling

/-- The character spelled. -/
def char : Spelling → Char
  | raw c _ => c
  | short _ c _ => c
  | code _ c _ => c
  | pair _ _ c _ _ _ => c

/-- What stands between the quotes for it. -/
def source : Spelling → List Char
  | raw c _ => [c]
  | short e _ _ => ['\\', e]
  | code hex _ _ => '\\' :: 'u' :: hex.digits
  | pair high low _ _ _ _ => '\\' :: 'u' :: high.digits ++ '\\' :: 'u' :: low.digits

def isPair : Spelling → Bool
  | pair .. => true
  | _ => false

/-- What the reader makes of it: each escape of a pair on its own. -/
def decoded : Spelling → List Char
  | pair .. => ['\uFFFD', '\uFFFD']
  | s => [s.char]

end Spelling

/-- The string literal of the spellings. -/
def literal (spellings : List Spelling) : List Char :=
  '"' :: spellings.flatMap Spelling.source ++ ['"']

section

variable {escapes : Char → Bool} {cs rest t : List Char}

/-- Four digits are hexadecimal digits, none of them a sign. -/
theorem Hex4.fromStrRadix16 (hex : Hex4) : Text.fromStrRadix16 hex.digits = some hex.code := by
  obtain ⟨digits, four, code, spelled⟩ := hex
  cases digits with
  | nil => cases four
  | cons c cs =>
    have sign : c ≠ '+' := by
      rintro rfl
      cases spelled
    rw [Text.fromStrRadix16]
    · exact spelled
    · simp
    · intro same
      exact sign (List.cons.inj same).1
    · intro ds same
      exact sign (List.cons.inj same).1

theorem Hex4.reads (hex : Hex4) (h : Reads (stringBody escapes cs) t rest) :
    Reads (stringBody escapes ('\\' :: 'u' :: (hex.digits ++ cs))) (scalarOr hex.code :: t)
      rest := by
  have four := hex.four
  have text : hexText (hex.digits ++ cs) = hex.digits := by
    unfold hexText
    rw [List.take_left' four, Nat.sub_eq_zero_of_le (by rw [List.length_append]; omega)]
    simp
  have drop : (hex.digits ++ cs).drop 4 = cs := List.drop_left' four
  refine reads_stringBody_unicode.mpr ⟨hex.code, ?_, t, ?_, rfl⟩
  · exact (congrArg Text.fromStrRadix16 text).trans hex.fromStrRadix16
  · rwa [drop]

theorem Hex4.escape (hex : Hex4) (h : Chars rfc8259 cs rest) :
    Chars rfc8259 ('\\' :: 'u' :: (hex.digits ++ cs)) rest := by
  obtain ⟨digits, four, code, spelled⟩ := hex
  have each := (hexValue_isSome 0).mp ⟨code, spelled⟩
  obtain ⟨a, b, c, d, rfl⟩ := List.length_eq_four.mp four
  exact .unicode each h

/-- Every spelling is a string literal of RFC 8259. -/
theorem chars_source (spellings : List Spelling) :
    Chars rfc8259 (spellings.flatMap Spelling.source ++ '"' :: rest) rest := by
  induction spellings with
  | nil => exact .close
  | cons s spellings ih =>
    rw [List.flatMap_cons, List.append_assoc]
    cases s with
    | raw c plain => exact .plain plain ih
    | short e c named => exact .escape (shortEscape_isSome.mp ⟨c, named⟩) ih
    | code hex c spelled => exact hex.escape ih
    | pair high low c beyond highUnit lowUnit =>
      have both := high.escape (low.escape ih)
      simpa only [Spelling.source, List.cons_append, List.append_assoc] using both

/-- A code that is no character's is read as the replacement character. -/
theorem scalarOr_surrogate {n : ℕ} (low : 0xD800 ≤ n) (high : n ≤ 0xDFFF) :
    scalarOr n = '\uFFFD' := by
  unfold scalarOr
  rw [if_neg]
  rintro (below | above) <;> omega

theorem Spelling.reads (s : Spelling) (h : Reads (stringBody escapes cs) t rest) :
    Reads (stringBody escapes (s.source ++ cs)) (s.decoded ++ t) rest := by
  cases s with
  | raw c plain =>
    obtain ⟨-, quote, slash⟩ := plain
    exact (reads_stringBody_plain quote slash).mpr ⟨t, h, rfl⟩
  | short e c named =>
    have notU : e ≠ 'u' := by
      rintro rfl
      cases named
    exact (reads_stringBody_short notU).mpr ⟨c, named, t, h, rfl⟩
  | code hex c spelled =>
    have read := hex.reads h
    rw [spelled, scalarOr_toNat] at read
    exact read
  | pair high low c beyond highUnit lowUnit =>
    have valid : c.toNat.isValidChar := c.valid
    have bound : c.toNat < 0x110000 := by
      rcases valid with below | above
      · omega
      · exact above.2
    have inner : (c.toNat - 0x10000) / 0x400 < 0x400 := by omega
    have highCode := scalarOr_surrogate (n := high.code) (by omega) (by omega)
    have lowCode := scalarOr_surrogate (n := low.code) (by omega) (by omega)
    have read := high.reads (low.reads h)
    rw [highCode, lowCode] at read
    show Reads (stringBody escapes (('\\' :: 'u' :: (high.digits ++ '\\' :: 'u' :: low.digits)) ++ cs))
      ('\uFFFD' :: '\uFFFD' :: t) rest
    have text : ('\\' :: 'u' :: (high.digits ++ '\\' :: 'u' :: low.digits)) ++ cs =
        '\\' :: 'u' :: (high.digits ++ '\\' :: 'u' :: (low.digits ++ cs)) := by
      simp only [List.cons_append, List.append_assoc]
    rwa [text]

/-- The reader takes every literal, a character for each escape. -/
theorem reads_literal (spellings : List Spelling) :
    Reads (parseString escapes (literal spellings ++ rest))
      (String.ofList (spellings.flatMap Spelling.decoded)) rest := by
  have body : Reads (stringBody escapes (spellings.flatMap Spelling.source ++ '"' :: rest))
      (spellings.flatMap Spelling.decoded) rest := by
    induction spellings with
    | nil => exact reads_stringBody_quote.mpr ⟨rfl, rfl⟩
    | cons s spellings ih =>
      rw [List.flatMap_cons, List.flatMap_cons, List.append_assoc]
      exact s.reads ih
  refine reads_parseString.mpr ⟨_, _, ?_, body, rfl⟩
  simp [literal]

theorem Spelling.length_decoded (s : Spelling) :
    s.decoded.length = if s.isPair then 2 else 1 := by
  cases s <;> rfl

/-- A pair comes out one character too long. -/
theorem length_decoded (spellings : List Spelling) :
    (spellings.flatMap Spelling.decoded).length =
      spellings.length + spellings.countP Spelling.isPair := by
  induction spellings with
  | nil => rfl
  | cons s spellings ih =>
    rw [List.flatMap_cons, List.length_append, ih, List.countP_cons, List.length_cons,
      s.length_decoded]
    split <;> omega

/-- A literal is decoded to the text it spells exactly where it spells no character by a
surrogate pair. -/
theorem decoded_iff (escapes : Char → Bool) (spellings : List Spelling) (rest : List Char) :
    Reads (parseString escapes (literal spellings ++ rest))
      (String.ofList (spellings.map Spelling.char)) rest ↔
      ∀ s ∈ spellings, s.isPair = false := by
  constructor
  · intro read
    have same := String.ofList_injective (read.unique (reads_literal spellings)).1
    have lengths := congrArg List.length same
    rw [List.length_map, length_decoded] at lengths
    intro s mem
    have none : spellings.countP Spelling.isPair = 0 := by omega
    simpa using List.countP_eq_zero.mp none s mem
  · intro single
    have same : spellings.flatMap Spelling.decoded = spellings.map Spelling.char := by
      rw [List.map_eq_flatMap]
      apply List.flatMap_congr
      intro s mem
      have alone := single s mem
      cases s with
      | pair high low c beyond highUnit lowUnit => cases alone
      | _ => rfl
    rw [← same]
    exact reads_literal spellings

end

/-- `"\ud83d\ude00"`, the spelling of one character beyond the basic plane. -/
def grin : Spelling :=
  .pair ⟨['d', '8', '3', 'd'], rfl, 0xD83D, rfl⟩ ⟨['d', 'e', '0', '0'], rfl, 0xDE00, rfl⟩ '😀'
    (by decide) (by decide) (by decide)

/-- It is read as two replacement characters. -/
theorem grin_is_lost : ¬ Reads (parseString (fun _ => false) (literal [grin]))
    (String.ofList [grin.char]) [] := by
  intro read
  have found : Reads (parseString (fun _ => false) (literal [grin] ++ []))
    (String.ofList ([grin].flatMap Spelling.decoded)) [] := reads_literal [grin]
  have same := String.ofList_injective (read.unique found).1
  exact absurd (congrArg List.length same) (by decide)

end Hecks.Json
