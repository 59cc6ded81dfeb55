import Hecks.Json.Numeral

/-! Which texts the reader accepts: exactly those that start with a value of the loose
grammar. On a text of RFC 8259 it succeeds exactly when the numbers are in range. -/
open Reading Hecks.Json.Parser

namespace Hecks.Json.Grammar

section

variable {D : Dialect} {cs rest : List Char}

theorem spaces_refl (cs : List Char) : Spaces D cs cs := ⟨[], by simp, rfl⟩

/-! ### Spaces -/

theorem spaces_skipWs (cs : List Char) : Spaces loose cs (skipWs cs) := by
  refine ⟨cs.takeWhile Text.isWhitespace, ?_, List.takeWhile_append_dropWhile.symm⟩
  intro c hc
  exact List.mem_takeWhile_imp hc

/-- Spaces up to a character that is none are what the reader skips. -/
theorem skipWs_of_spaces {c : Char} {body : List Char} (spaces : Spaces loose cs (c :: body))
    (first : Text.isWhitespace c = false) : skipWs cs = c :: body := by
  obtain ⟨ws, all, rfl⟩ := spaces
  induction ws with
  | nil => simp [skipWs, first]
  | cons w ws ih =>
    have space : Text.isWhitespace w = true := all w List.mem_cons_self
    have := ih fun c hc => all c (List.mem_cons_of_mem _ hc)
    simpa [skipWs, space] using this

/-! ### Strings -/

variable {escapes : Char → Bool}

theorem hexDigit?_isSome {c : Char} : (Text.hexDigit? c).isSome = true ↔ hexDigit c := by
  unfold Text.hexDigit? hexDigit
  split
  next h => simp [h]
  next h =>
  split
  next h' => simp [h']
  next h' =>
  split
  next h'' => simp [h'']
  next h'' => simp [h, h', h'']

theorem hexValue_isSome {ds : List Char} (acc : Nat) :
    (∃ n, Text.hexValue ds acc = some n) ↔ ∀ c ∈ ds, hexDigit c := by
  induction ds generalizing acc with
  | nil => simp [Text.hexValue]
  | cons d ds ih =>
    rw [Text.hexValue, List.forall_mem_cons, ← hexDigit?_isSome]
    cases Text.hexDigit? d with
    | none => simp
    | some k => simpa using ih (16 * acc + k)

/-- The four characters behind `\u` that the reader takes. -/
theorem fromStrRadix16_isSome {a b c d : Char} :
    (∃ n, Text.fromStrRadix16 [a, b, c, d] = some n) ↔ loose.unicode [a, b, c, d] := by
  have plusNotHex : ¬ hexDigit '+' := by simp [hexDigit]
  by_cases plus : a = '+'
  · subst plus
    rw [show Text.fromStrRadix16 ['+', b, c, d] = Text.hexValue [b, c, d] 0 from rfl,
      hexValue_isSome]
    simp [loose]
  · have read : Text.fromStrRadix16 [a, b, c, d] = Text.hexValue [a, b, c, d] 0 := by
      unfold Text.fromStrRadix16
      split <;> simp_all
    rw [read, hexValue_isSome]
    simp [loose, plus]

theorem hexText_four {a b c d : Char} : hexText (a :: b :: c :: d :: cs) = [a, b, c, d] := by
  simp [hexText]

theorem shortEscape_isSome {e : Char} :
    (∃ c, shortEscape e = some c) ↔ e ∈ ['"', '\\', '/', 'b', 'f', 'n', 'r', 't'] := by
  constructor
  · rintro ⟨c, found⟩
    unfold shortEscape at found
    split at found <;> simp_all
  · intro mem
    simp only [List.mem_cons, List.not_mem_nil, or_false] at mem
    rcases mem with rfl | rfl | rfl | rfl | rfl | rfl | rfl | rfl
    all_goals exact ⟨_, rfl⟩

theorem Chars.read (h : Chars loose cs rest) : ∃ t, Reads (stringBody escapes cs) t rest := by
  induction h with
  | close => exact ⟨[], reads_stringBody_quote.mpr ⟨rfl, rfl⟩⟩
  | plain ok _ ih =>
    obtain ⟨t, read⟩ := ih
    exact ⟨_, (reads_stringBody_plain ok.1 ok.2).mpr ⟨t, read, rfl⟩⟩
  | @escape e _ _ mem _ ih =>
    obtain ⟨t, read⟩ := ih
    obtain ⟨c, found⟩ := shortEscape_isSome.mpr mem
    have notU : e ≠ 'u' := by
      rintro rfl
      cases found
    exact ⟨_, (reads_stringBody_short notU).mpr ⟨c, found, t, read, rfl⟩⟩
  | unicode digits _ ih =>
    obtain ⟨t, read⟩ := ih
    obtain ⟨code, found⟩ := fromStrRadix16_isSome.mpr digits
    exact ⟨_, reads_stringBody_unicode.mpr ⟨code, hexText_four ▸ found, t, read, rfl⟩⟩

theorem chars_of_read {t : List Char} (read : Reads (stringBody escapes cs) t rest) :
    Chars loose cs rest := by
  induction len : cs.length using Nat.strong_induction_on generalizing cs t with
  | _ n ih =>
    subst len
    cases cs with
    | nil => exact absurd read reads_stringBody_nil
    | cons c cs =>
      by_cases quote : c = '"'
      · subst quote
        obtain ⟨-, rfl⟩ := reads_stringBody_quote.mp read
        exact .close
      by_cases slash : c = '\\'
      · subst slash
        cases cs with
        | nil =>
          obtain ⟨r, eq, -, -⟩ := read
          rw [stringBody] at eq
          cases eq
        | cons e cs =>
          by_cases letter : e = 'u'
          · subst letter
            obtain ⟨code, found, u, read', -⟩ := reads_stringBody_unicode.mp read
            rcases cs with _ | ⟨a, _ | ⟨b, _ | ⟨c, _ | ⟨d, cs⟩⟩⟩⟩
            · exact absurd read' reads_stringBody_nil
            · exact absurd read' reads_stringBody_nil
            · exact absurd read' reads_stringBody_nil
            · exact absurd read' reads_stringBody_nil
            · rw [hexText_four] at found
              have four : loose.unicode [a, b, c, d] := fromStrRadix16_isSome.mp ⟨code, found⟩
              exact .unicode four (ih _ (by simp; omega) read' rfl)
          · obtain ⟨c, found, u, read', -⟩ := (reads_stringBody_short letter).mp read
            exact .escape (shortEscape_isSome.mp ⟨c, found⟩) (ih _ (by simp only [List.length_cons]; omega) read' rfl)
      · obtain ⟨u, read', -⟩ := (reads_stringBody_plain quote slash).mp read
        exact .plain ⟨quote, slash⟩ (ih _ (by simp) read' rfl)

/-! ### Every text that is read is in the grammar -/

theorem not_space_of_digit {c : Char} (h : c = '-' ∨ isDigit c = true) :
    Text.isWhitespace c = false := by
  rcases h with rfl | digit
  · decide
  · unfold isDigit Text.digit? at digit
    split at digit
    next bounds =>
      obtain ⟨low, high⟩ := bounds
      rw [Char.le_def, UInt32.le_iff_toNat_le] at low high
      change 48 ≤ c.toNat at low
      change c.toNat ≤ 57 at high
      unfold Text.isWhitespace
      simp only [Bool.or_eq_false_iff, Bool.and_eq_false_iff, decide_eq_false_iff_not,
        beq_eq_false_iff_ne]
      omega
    next => cases digit

/-- A value read from a text whose nested parts are in the grammar is in it too. -/
theorem value_of_starts {d : Nat} {c : Char} {body : List Char} {v : Json}
    (items : ∀ vs, Reads (parseItems escapes false (d + 1) body) vs rest → Items loose (d + 1) body rest)
    (fields : ∀ fs, Reads (parseFields escapes false (d + 1) body) fs rest →
      Fields loose (d + 1) body rest)
    (h : Starts escapes false d c body v rest) : Value loose d (c :: body) rest := by
  rcases h.first with rfl | rfl | rfl | word | number
  · obtain ⟨shallow, fs, read, -⟩ := starts_brace.mp h
    rcases reads_parseObjectBody.mp read with ⟨close, -⟩ | ⟨-, read⟩
    · exact .emptyObject shallow (close ▸ spaces_skipWs body)
    · exact .object shallow (fields fs read)
  · obtain ⟨shallow, vs, read, -⟩ := starts_bracket.mp h
    rcases reads_parseArrayBody.mp read with ⟨close, -⟩ | ⟨-, read⟩
    · exact .emptyArray shallow (close ▸ spaces_skipWs body)
    · exact .array shallow (items vs read)
  · obtain ⟨t, read, -⟩ := starts_quote.mp h
    exact .string (chars_of_read read)
  · rcases (starts_word word).mp h with ⟨same, -⟩ | ⟨same, -⟩ | ⟨same, -⟩
    · rw [same]
      exact .word (by simp)
    · rw [same]
      exact .word (by simp)
    · rw [same]
      exact .word (by simp)
  · have read := (starts_number number).mp h
    exact .number (loose_number_iff.mpr ⟨c, body, v, rfl, number, read⟩)

/-- The induction is on the length of the text: nested values stand behind a bracket, later
items behind a comma. -/
theorem grammar_of_reads (n : Nat) : ∀ (d : Nat) (cs : List Char), cs.length ≤ n →
    (∀ v rest, Reads (parseValue escapes false d cs) v rest →
      ∃ value, Spaces loose cs value ∧ Value loose d value rest) ∧
    (∀ vs rest, Reads (parseItems escapes false d cs) vs rest → Items loose d cs rest) ∧
    (∀ fs rest, Reads (parseFields escapes false d cs) fs rest → Fields loose d cs rest) := by
  induction n with
  | zero =>
    intro d cs short
    have nil : cs = [] := List.length_eq_zero_iff.mp (by omega)
    subst nil
    have noValue : ∀ v rest, ¬ Reads (parseValue escapes false d []) v rest := by
      intro v rest read
      obtain ⟨c, body, none, -⟩ := reads_parseValue.mp read
      cases none
    refine ⟨fun v rest read => absurd read (noValue v rest), ?_, ?_⟩
    · intro vs rest read
      obtain ⟨v, after, read, -⟩ := reads_parseItems.mp read
      exact absurd read (noValue v after)
    · intro fs rest read
      obtain ⟨key, afterKey, body, v, after, read, -⟩ := reads_parseFields.mp read
      obtain ⟨_, _, none, -⟩ := reads_parseString.mp read
      cases none
  | succ n ih =>
    intro d cs short
    have value : ∀ v rest, Reads (parseValue escapes false d cs) v rest →
        ∃ value, Spaces loose cs value ∧ Value loose d value rest := by
      intro v rest read
      obtain ⟨c, body, some, starts⟩ := reads_parseValue.mp read
      have shorter := length_skipWs_le cs
      rw [some, List.length_cons] at shorter
      obtain ⟨-, items, fields⟩ := ih (d + 1) body (by omega)
      exact ⟨c :: body, some ▸ spaces_skipWs cs,
        value_of_starts (fun vs => items vs rest) (fun fs => fields fs rest) starts⟩
    refine ⟨value, ?_, ?_⟩
    · intro vs rest read
      obtain ⟨v, after, read, last⟩ := reads_parseItems.mp read
      obtain ⟨text, spaces, value⟩ := value v after read
      have left := read.length_le
      have skipped := length_skipWs_le after
      rcases last with ⟨close, -⟩ | ⟨next, ws, comma, more, -⟩
      · exact .last spaces value (close ▸ spaces_skipWs after)
      · rw [comma, List.length_cons] at skipped
        exact .more spaces value (comma ▸ spaces_skipWs after)
          ((ih d next (by omega)).2.1 ws rest more)
    · intro fs rest read
      obtain ⟨key, afterKey, body, v, after, readKey, colon, read, last⟩ := reads_parseFields.mp read
      obtain ⟨keyText, t, quote, readChars, -⟩ := reads_parseString.mp readKey
      have keyLeft := readKey.length_le
      have skipped := length_skipWs_le cs
      have skippedKey := length_skipWs_le afterKey
      rw [colon, List.length_cons] at skippedKey
      obtain ⟨text, spaces, value⟩ := (ih d body (by omega)).1 v after read
      have left := read.length_le
      have skippedValue := length_skipWs_le after
      have before : Spaces loose cs ('"' :: keyText) := quote ▸ spaces_skipWs cs
      have between : Spaces loose afterKey (':' :: body) := colon ▸ spaces_skipWs afterKey
      rcases last with ⟨close, -⟩ | ⟨next, gs, comma, more, -⟩
      · exact .last before (chars_of_read readChars) between spaces value
          (close ▸ spaces_skipWs after)
      · rw [comma, List.length_cons] at skippedValue
        exact .more before (chars_of_read readChars) between spaces value
          (comma ▸ spaces_skipWs after) ((ih d next (by omega)).2.2 gs rest more)

/-! ### Every text in the grammar is read -/

/-- A dialect whose spaces the reader skips and whose numbers it recognises as such. -/
structure Seen (D : Dialect) : Prop where
  space : ∀ c, D.space c → loose.space c
  number : ∀ cs rest, D.number cs rest → ∃ c body, cs = c :: body ∧ (c = '-' ∨ isDigit c)

theorem seen_loose : Seen loose := by
  refine ⟨fun _ h => h, ?_⟩
  rintro cs rest ⟨n, hn, -, -, rfl⟩
  exact hn.text_first rest

theorem Seen.skipWs (seen : Seen D) {c : Char} {body : List Char}
    (spaces : Spaces D cs (c :: body)) (first : Text.isWhitespace c = false) :
    skipWs cs = c :: body := by
  obtain ⟨ws, all, same⟩ := spaces
  exact skipWs_of_spaces ⟨ws, fun c hc => seen.space c (all c hc), same⟩ first

/-- A value starts with no space and with no closing bracket. -/
theorem Seen.first (seen : Seen D) {d : Nat} (h : Value D d cs rest) :
    ∃ c body, cs = c :: body ∧ Text.isWhitespace c = false ∧ c ≠ ']' := by
  cases h with
  | word mem =>
    simp only [List.mem_cons, List.not_mem_nil, or_false] at mem
    rcases mem with rfl | rfl | rfl
    all_goals exact ⟨_, _, rfl, by decide, by decide⟩
  | number h =>
    obtain ⟨c, body, rfl, first⟩ := seen.number cs rest h
    refine ⟨c, body, rfl, not_space_of_digit first, ?_⟩
    rintro rfl
    simp [isDigit, Text.digit?] at first
  | string => exact ⟨_, _, rfl, by decide, by decide⟩
  | emptyObject => exact ⟨_, _, rfl, by decide, by decide⟩
  | object => exact ⟨_, _, rfl, by decide, by decide⟩
  | emptyArray => exact ⟨_, _, rfl, by decide, by decide⟩
  | array => exact ⟨_, _, rfl, by decide, by decide⟩

theorem Seen.items_ne (seen : Seen D) {d : Nat} (h : Items D d cs rest) (body : List Char) :
    Parser.skipWs cs ≠ ']' :: body := by
  have start : ∀ {value after}, Spaces D cs value → Value D d value after →
      Parser.skipWs cs ≠ ']' :: body := by
    intro value after spaces hv same
    obtain ⟨c, _, rfl, space, bracket⟩ := seen.first hv
    rw [seen.skipWs spaces space] at same
    exact bracket (List.cons.inj same).1
  cases h with
  | last spaces hv _ => exact start spaces hv
  | more spaces hv _ _ => exact start spaces hv

theorem Seen.fields_eq (seen : Seen D) {d : Nat} (h : Fields D d cs rest) :
    ∃ key, Parser.skipWs cs = '"' :: key := by
  cases h with
  | last spaces => exact ⟨_, seen.skipWs spaces (by decide)⟩
  | more spaces => exact ⟨_, seen.skipWs spaces (by decide)⟩

theorem read_key {key colon body : List Char} (spaces : Spaces loose cs ('"' :: key))
    (chars : Chars loose key colon) (between : Spaces loose colon (':' :: body)) :
    ∃ k, Reads (parseString escapes (skipWs cs)) k colon ∧ skipWs colon = ':' :: body := by
  obtain ⟨t, read⟩ := @Chars.read _ _ escapes chars
  have quote := skipWs_of_spaces spaces (by decide)
  exact ⟨String.ofList t, reads_parseString.mpr ⟨key, t, quote, read, rfl⟩,
    skipWs_of_spaces between (by decide)⟩

end

section

variable {escapes : Char → Bool}

mutual

theorem Value.read {d : Nat} {value rest : List Char} :
    Value loose d value rest → ∀ cs, Spaces loose cs value →
      ∃ v, Reads (parseValue escapes false d cs) v rest
  | .word mem, cs, spaces => by
    simp only [List.mem_cons, List.not_mem_nil, or_false] at mem
    rcases mem with rfl | rfl | rfl
    · have skip := skipWs_of_spaces spaces (by decide)
      exact ⟨_, (reads_value skip).mpr ((starts_word (.inl rfl)).mpr (.inl ⟨rfl, rfl⟩))⟩
    · have skip := skipWs_of_spaces spaces (by decide)
      exact ⟨_, (reads_value skip).mpr
        ((starts_word (.inr (.inl rfl))).mpr (.inr (.inl ⟨rfl, rfl⟩)))⟩
    · have skip := skipWs_of_spaces spaces (by decide)
      exact ⟨_, (reads_value skip).mpr
        ((starts_word (.inr (.inr rfl))).mpr (.inr (.inr ⟨rfl, rfl⟩)))⟩
  | .number h, cs, spaces => by
    obtain ⟨c, body, v, rfl, first, read⟩ := loose_number_iff.mp h
    have skip := skipWs_of_spaces spaces (not_space_of_digit first)
    exact ⟨v, (reads_value skip).mpr ((starts_number first).mpr read)⟩
  | .string h, cs, spaces => by
    have skip := skipWs_of_spaces spaces (by decide)
    obtain ⟨t, read⟩ := h.read
    exact ⟨_, (reads_value skip).mpr (starts_quote.mpr ⟨t, read, rfl⟩)⟩
  | .emptyObject shallow close, cs, spaces => by
    have skip := skipWs_of_spaces spaces (by decide)
    have body := skipWs_of_spaces close (by decide)
    exact ⟨_, (reads_value skip).mpr (starts_brace.mpr
      ⟨shallow, [], reads_parseObjectBody.mpr (.inl ⟨body, rfl⟩), rfl⟩)⟩
  | .object shallow h, cs, spaces => by
    have skip := skipWs_of_spaces spaces (by decide)
    obtain ⟨fs, read⟩ := Fields.read h
    obtain ⟨key, quote⟩ := seen_loose.fields_eq h
    have body := reads_parseObjectBody.mpr (.inr ⟨by simp [quote], read⟩)
    exact ⟨_, (reads_value skip).mpr (starts_brace.mpr ⟨shallow, fs, body, rfl⟩)⟩
  | .emptyArray shallow close, cs, spaces => by
    have skip := skipWs_of_spaces spaces (by decide)
    have body := skipWs_of_spaces close (by decide)
    exact ⟨_, (reads_value skip).mpr (starts_bracket.mpr
      ⟨shallow, [], reads_parseArrayBody.mpr (.inl ⟨body, rfl⟩), rfl⟩)⟩
  | .array shallow h, cs, spaces => by
    have skip := skipWs_of_spaces spaces (by decide)
    obtain ⟨vs, read⟩ := Items.read h
    have body := reads_parseArrayBody.mpr (.inr ⟨seen_loose.items_ne h, read⟩)
    exact ⟨_, (reads_value skip).mpr (starts_bracket.mpr ⟨shallow, vs, body, rfl⟩)⟩

theorem Items.read {d : Nat} {cs rest : List Char} :
    Items loose d cs rest → ∃ vs, Reads (parseItems escapes false d cs) vs rest
  | .last spaces h close => by
    obtain ⟨v, read⟩ := Value.read h cs spaces
    have last := skipWs_of_spaces close (by decide)
    exact ⟨_, reads_parseItems.mpr ⟨v, _, read, .inl ⟨last, rfl⟩⟩⟩
  | .more spaces h comma more => by
    obtain ⟨v, read⟩ := Value.read h cs spaces
    obtain ⟨vs, readMore⟩ := Items.read more
    have next := skipWs_of_spaces comma (by decide)
    exact ⟨_, reads_parseItems.mpr ⟨v, _, read, .inr ⟨_, vs, next, readMore, rfl⟩⟩⟩

theorem Fields.read {d : Nat} {cs rest : List Char} :
    Fields loose d cs rest → ∃ fs, Reads (parseFields escapes false d cs) fs rest
  | .last before chars between spaces h close => by
    obtain ⟨k, readKey, colon⟩ := read_key before chars between
    obtain ⟨v, read⟩ := Value.read h _ spaces
    have last := skipWs_of_spaces close (by decide)
    exact ⟨_, reads_parseFields.mpr ⟨k, _, _, v, _, readKey, colon, read, .inl ⟨last, rfl⟩⟩⟩
  | .more before chars between spaces h comma more => by
    obtain ⟨k, readKey, colon⟩ := read_key before chars between
    obtain ⟨v, read⟩ := Value.read h _ spaces
    obtain ⟨fs, readMore⟩ := Fields.read more
    have next := skipWs_of_spaces comma (by decide)
    exact ⟨_, reads_parseFields.mpr
      ⟨k, _, _, v, _, readKey, colon, read, .inr ⟨_, fs, next, readMore, rfl⟩⟩⟩

end

/-- The reader accepts a text exactly when it starts with a value of the loose grammar. -/
theorem parse_ok_iff (s : String) :
    (∃ v, Json.parse escapes s = .ok v) ↔
      ∃ value rest, Spaces loose s.toList value ∧ Value loose 0 value rest := by
  constructor
  · rintro ⟨v, found⟩
    obtain ⟨r, read, -⟩ := bind_eq_ok.mp found
    obtain ⟨value, spaces, h⟩ :=
      (grammar_of_reads s.toList.length 0 s.toList (le_refl _)).1 _ _ ⟨r, read, rfl, rfl⟩
    exact ⟨value, r.rest, spaces, h⟩
  · rintro ⟨value, rest, spaces, h⟩
    obtain ⟨v, r, read, -⟩ := @Value.read escapes _ _ _ h _ spaces
    exact ⟨r.value, bind_eq_ok.mpr ⟨r, read, rfl⟩⟩

end

/-! ### The texts of RFC 8259 -/

section

variable {D D' : Dialect} {n : Numeral} {cs rest : List Char}

theorem Spaces.mono (space : ∀ c, D.space c → D'.space c) (h : Spaces D cs rest) :
    Spaces D' cs rest := by
  obtain ⟨ws, all, same⟩ := h
  exact ⟨ws, fun c hc => space c (all c hc), same⟩

theorem Chars.mono (plain : ∀ c, D.plain c → D'.plain c)
    (unicode : ∀ ds, ds ≠ [] → D.unicode ds → D'.unicode ds) (h : Chars D cs rest) :
    Chars D' cs rest := by
  induction h with
  | close => exact .close
  | plain ok _ ih => exact .plain (plain _ ok) ih
  | escape mem _ ih => exact .escape mem ih
  | unicode ok _ ih => exact .unicode (unicode _ (by simp) ok) ih

theorem space_loose (c : Char) (h : rfc8259.space c) : loose.space c := by
  simp only [rfc8259, List.mem_cons, List.not_mem_nil, or_false] at h
  rcases h with rfl | rfl | rfl | rfl
  all_goals exact rfl

theorem unicode_loose (ds : List Char) (nonempty : ds ≠ []) (h : rfc8259.unicode ds) :
    loose.unicode ds := by
  obtain ⟨d, ds, rfl⟩ := List.exists_cons_of_ne_nil nonempty
  exact ⟨d, ds, rfl, .inr (h d List.mem_cons_self), fun c hc => h c (List.mem_cons_of_mem _ hc)⟩

theorem Spaces.loose (h : Spaces rfc8259 cs rest) : Spaces loose cs rest := h.mono space_loose

theorem Chars.loose (h : Chars rfc8259 cs rest) : Chars loose cs rest := by
  apply h.mono
  · intro c ok
    exact ok.2
  · exact unicode_loose

theorem Numeral.Strict.loose (h : n.Strict) : n.Loose :=
  ⟨h.toWellFormed, .inr h.someWhole, .inl h.someWhole, h.someExponent⟩

theorem seen_rfc8259 : Seen rfc8259 := by
  refine ⟨space_loose, ?_⟩
  rintro cs rest ⟨n, strict, rfl⟩
  exact strict.loose.text_first rest

/-- No number goes on into this text. -/
def Follows (rest : List Char) : Prop :=
  ∀ c, rest.head? = some c → isDigit c = false ∧ c ≠ 'e' ∧ c ≠ 'E' ∧ c ≠ '.'

theorem Follows.stops (h : Follows rest) : n.Stops rest := by
  intro c head
  obtain ⟨digit, e, E, dot⟩ := h c head
  exact ⟨digit, fun _ => ⟨e, E, fun _ => dot⟩⟩

/-- Spaces and a closing character, a comma or the end of the text. -/
theorem follows_of_spaces (h : Spaces rfc8259 cs rest)
    (stop : ∀ c, rest.head? = some c → c ∈ [']', '\x7d', ',']) : Follows cs := by
  obtain ⟨ws, all, rfl⟩ := h
  intro c head
  cases ws with
  | nil =>
    have := stop c head
    simp only [List.mem_cons, List.not_mem_nil, or_false] at this
    rcases this with rfl | rfl | rfl
    all_goals decide
  | cons w ws =>
    have space := all w List.mem_cons_self
    simp only [List.cons_append, List.head?_cons, Option.some.injEq] at head
    subst head
    simp only [rfc8259, List.mem_cons, List.not_mem_nil, or_false] at space
    rcases space with rfl | rfl | rfl | rfl
    all_goals decide

theorem follows_bracket (h : Spaces rfc8259 cs (']' :: rest)) : Follows cs :=
  follows_of_spaces h (by simp)

theorem follows_brace (h : Spaces rfc8259 cs ('\x7d' :: rest)) : Follows cs :=
  follows_of_spaces h (by simp)

theorem follows_comma (h : Spaces rfc8259 cs (',' :: rest)) : Follows cs :=
  follows_of_spaces h (by simp)

end

/-- The two dialects of RFC 8259 differ in their numbers only. -/
theorem Chars.ofInRange {cs rest : List Char} (h : Chars rfc8259InRange cs rest) :
    Chars rfc8259 cs rest := by
  apply h.mono
  · intro c ok
    exact ok
  · intro ds _ ok
    exact ok

theorem Chars.inRange {cs rest : List Char} (h : Chars rfc8259 cs rest) :
    Chars rfc8259InRange cs rest := by
  apply h.mono
  · intro c ok
    exact ok
  · intro ds _ ok
    exact ok

mutual

theorem Value.ofInRange {d : Nat} {cs rest : List Char} :
    Value rfc8259InRange d cs rest → Follows rest → Value loose d cs rest
  | .word mem, _ => .word mem
  | .number ⟨n, strict, range, same⟩, follows =>
    .number ⟨n, strict.loose, range, follows.stops, same⟩
  | .string h, _ => .string h.ofInRange.loose
  | .emptyObject shallow close, _ => .emptyObject shallow (Spaces.loose close)
  | .object shallow h, _ => .object shallow (Fields.ofInRange h)
  | .emptyArray shallow close, _ => .emptyArray shallow (Spaces.loose close)
  | .array shallow h, _ => .array shallow (Items.ofInRange h)

theorem Items.ofInRange {d : Nat} {cs rest : List Char} :
    Items rfc8259InRange d cs rest → Items loose d cs rest
  | .last spaces h close =>
    .last (Spaces.loose spaces) (Value.ofInRange h (follows_bracket close)) (Spaces.loose close)
  | .more spaces h comma more =>
    .more (Spaces.loose spaces) (Value.ofInRange h (follows_comma comma)) (Spaces.loose comma)
      (Items.ofInRange more)

theorem Fields.ofInRange {d : Nat} {cs rest : List Char} :
    Fields rfc8259InRange d cs rest → Fields loose d cs rest
  | .last before chars between spaces h close =>
    .last (Spaces.loose before) chars.ofInRange.loose (Spaces.loose between) (Spaces.loose spaces)
      (Value.ofInRange h (follows_brace close)) (Spaces.loose close)
  | .more before chars between spaces h comma more =>
    .more (Spaces.loose before) chars.ofInRange.loose (Spaces.loose between) (Spaces.loose spaces)
      (Value.ofInRange h (follows_comma comma)) (Spaces.loose comma) (Fields.ofInRange more)

end

section

variable {escapes : Char → Bool}

/-- A value of the loose grammar is read up to where the grammar says it ends. -/
theorem Value.rest_eq {d : Nat} {cs value rest rest' : List Char} {v : Json}
    (h : Value loose d value rest) (spaces : Spaces loose cs value)
    (read : Reads (parseValue escapes false d cs) v rest') : rest' = rest := by
  obtain ⟨w, read'⟩ := Value.read h cs spaces
  exact (read.unique read').2

mutual

/-- Where the reader reads a value of RFC 8259, its numbers are in range. -/
theorem Value.inRange {d : Nat} {value rest : List Char} :
    Value rfc8259 d value rest → Follows rest → ∀ {cs v rest'}, Spaces loose cs value →
      Reads (parseValue escapes false d cs) v rest' →
      rest' = rest ∧ Value rfc8259InRange d value rest
  | .word mem, _, cs, v, rest', spaces, read =>
    ⟨Value.rest_eq (.word mem) spaces read, .word mem⟩
  | .number ⟨n, strict, same⟩, follows, cs, v, rest', spaces, read => by
    have text := numberText_text strict.loose follows.stops
    obtain ⟨c, body, eq, first⟩ := strict.loose.text_first rest
    rw [same, eq] at spaces
    have skip := skipWs_of_spaces spaces (not_space_of_digit first)
    have number := (starts_number first).mp ((reads_value skip).mp read)
    obtain ⟨found, left⟩ := reads_parseNumber.mp number
    rw [← eq, text] at found left
    obtain ⟨-, range⟩ :=
      (numberValue_ok_iff strict.toWellFormed strict.loose.start).mp ⟨v, found⟩
    exact ⟨left.symm, .number ⟨n, strict, range, same⟩⟩
  | .string h, _, cs, v, rest', spaces, read =>
    ⟨Value.rest_eq (.string h.loose) spaces read, .string h.inRange⟩
  | .emptyObject shallow close, _, cs, v, rest', spaces, read =>
    ⟨Value.rest_eq (.emptyObject shallow close.loose) spaces read, .emptyObject shallow close⟩
  | .object shallow h, _, cs, v, rest', spaces, read => by
    have skip := skipWs_of_spaces spaces (by decide)
    obtain ⟨-, fs, body, -⟩ := starts_brace.mp ((reads_value skip).mp read)
    obtain ⟨key, quote⟩ := seen_rfc8259.fields_eq h
    rcases reads_parseObjectBody.mp body with ⟨close, -⟩ | ⟨-, readFields⟩
    · rw [quote] at close
      cases close
    · obtain ⟨same, fields⟩ := Fields.inRange h readFields
      exact ⟨same, .object shallow fields⟩
  | .emptyArray shallow close, _, cs, v, rest', spaces, read =>
    ⟨Value.rest_eq (.emptyArray shallow close.loose) spaces read, .emptyArray shallow close⟩
  | .array shallow h, _, cs, v, rest', spaces, read => by
    have skip := skipWs_of_spaces spaces (by decide)
    obtain ⟨-, vs, body, -⟩ := starts_bracket.mp ((reads_value skip).mp read)
    rcases reads_parseArrayBody.mp body with ⟨close, -⟩ | ⟨-, readItems⟩
    · exact absurd close (seen_rfc8259.items_ne h _)
    · obtain ⟨same, items⟩ := Items.inRange h readItems
      exact ⟨same, .array shallow items⟩

theorem Items.inRange {d : Nat} {cs rest : List Char} :
    Items rfc8259 d cs rest → ∀ {vs rest'}, Reads (parseItems escapes false d cs) vs rest' →
      rest' = rest ∧ Items rfc8259InRange d cs rest
  | .last spaces h close, vs, rest', read => by
    obtain ⟨v, after, readValue, last⟩ := reads_parseItems.mp read
    obtain ⟨rfl, value⟩ := Value.inRange h (follows_bracket close) spaces.loose readValue
    have skip := skipWs_of_spaces close.loose (by decide)
    rw [skip] at last
    rcases last with ⟨same, -⟩ | ⟨next, ws, comma, -⟩
    · exact ⟨(List.cons.inj same).2.symm, .last spaces value close⟩
    · cases comma
  | .more spaces h comma more, vs, rest', read => by
    obtain ⟨v, after, readValue, last⟩ := reads_parseItems.mp read
    obtain ⟨rfl, value⟩ := Value.inRange h (follows_comma comma) spaces.loose readValue
    have skip := skipWs_of_spaces comma.loose (by decide)
    rw [skip] at last
    rcases last with ⟨same, -⟩ | ⟨next, ws, same, readMore, -⟩
    · cases same
    · cases same
      obtain ⟨same, items⟩ := Items.inRange more readMore
      exact ⟨same, .more spaces value comma items⟩

theorem Fields.inRange {d : Nat} {cs rest : List Char} :
    Fields rfc8259 d cs rest → ∀ {fs rest'}, Reads (parseFields escapes false d cs) fs rest' →
      rest' = rest ∧ Fields rfc8259InRange d cs rest
  | .last before chars between spaces h close, fs, rest', read => by
    obtain ⟨key, afterKey, body, v, after, readKey, colon, readValue, last⟩ :=
      reads_parseFields.mp read
    obtain ⟨key', readKey', colon'⟩ := read_key before.loose chars.loose between.loose
    obtain ⟨-, rfl⟩ := readKey.unique readKey'
    cases colon.symm.trans colon'
    obtain ⟨rfl, value⟩ := Value.inRange h (follows_brace close) spaces.loose readValue
    have skip := skipWs_of_spaces close.loose (by decide)
    rw [skip] at last
    rcases last with ⟨same, -⟩ | ⟨next, ws, comma, -⟩
    · exact ⟨(List.cons.inj same).2.symm, .last before chars.inRange between spaces value close⟩
    · cases comma
  | .more before chars between spaces h comma more, fs, rest', read => by
    obtain ⟨key, afterKey, body, v, after, readKey, colon, readValue, last⟩ :=
      reads_parseFields.mp read
    obtain ⟨key', readKey', colon'⟩ := read_key before.loose chars.loose between.loose
    obtain ⟨-, rfl⟩ := readKey.unique readKey'
    cases colon.symm.trans colon'
    obtain ⟨rfl, value⟩ := Value.inRange h (follows_comma comma) spaces.loose readValue
    have skip := skipWs_of_spaces comma.loose (by decide)
    rw [skip] at last
    rcases last with ⟨same, -⟩ | ⟨next, ws, same, readMore, -⟩
    · cases same
    · cases same
      obtain ⟨same, fields⟩ := Fields.inRange more readMore
      exact ⟨same, .more before chars.inRange between spaces value comma fields⟩

end

/-- A text of RFC 8259 is accepted exactly when each of its numbers is a plain integer or
within the range of `f64`; and a text is accepted only if it starts with a value that departs
from RFC 8259 in the ways the loose grammar names. -/
theorem parse_accepts (s : String) :
    (Document rfc8259 s.toList →
      ((∃ v, Json.parse escapes s = .ok v) ↔ Document rfc8259InRange s.toList)) ∧
    ((∃ v, Json.parse escapes s = .ok v) →
      ∃ value rest, Spaces loose s.toList value ∧ Value loose 0 value rest) := by
  refine ⟨?_, (parse_ok_iff s).mp⟩
  rintro ⟨value, after, before, h, behind⟩
  have follows : Follows after := follows_of_spaces behind (by simp)
  constructor
  · rintro ⟨v, found⟩
    obtain ⟨r, read, -⟩ := bind_eq_ok.mp found
    obtain ⟨-, inRange⟩ := Value.inRange h follows before.loose ⟨r, read, rfl, rfl⟩
    exact ⟨value, after, before, inRange, behind⟩
  · rintro ⟨value, after, before, h, behind⟩
    have follows : Follows after := follows_of_spaces behind (by simp)
    exact (parse_ok_iff s).mpr ⟨value, after, Spaces.loose before, h.ofInRange follows⟩

end

/-- A number of RFC 8259 past the range of `f64` is refused. -/
theorem out_of_range_refused :
    Document rfc8259 "1e999".toList ∧
      (Json.parse (fun _ => false) "1e999").toBool = false := by
  refine ⟨⟨_, [], spaces_refl _, .number ?_, spaces_refl _⟩, by decide +kernel⟩
  refine ⟨⟨false, ['1'], none, some (['e'], ['9', '9', '9'])⟩, ?_, by simp; rfl⟩
  refine ⟨⟨by simp; decide, by simp, ?_⟩, by simp, by simp, by simp, by simp⟩
  rintro _ ⟨⟩
  exact ⟨by decide, by simp; decide⟩

end Hecks.Json.Grammar
