import Mathlib
import Hecks.Signin.Accepts

/-! The token reader as a whole: what each of its steps reads, that it reads nothing outside the
grammar, and that it reads all of it. -/

namespace Hecks.Signin.StrictJson

open Slices
open Grammar (Chars Document)
open Hecks.Json.Grammar (Numeral rfc8259 Spaces follows_bracket follows_brace follows_comma)

variable {d : Nat} {cs : List Char} {bs rest : List UInt8}

/-! ### What each step reads -/

theorem takes_literal {word : String} {u v : Json} :
    Takes (literal word u bs) v rest ↔ bs = bytes word.toList ++ rest ∧ v = u := by
  unfold literal
  constructor
  · rintro ⟨r, eq, rfl, rfl⟩
    split at eq
    next front =>
      obtain ⟨tail, rfl⟩ := List.isPrefixOf_iff_prefix.mp front
      cases eq
      exact ⟨by simp, rfl⟩
    next => cases eq
  · rintro ⟨rfl, rfl⟩
    have front : (bytes word.toList).isPrefixOf (bytes word.toList ++ rest) = true :=
      List.isPrefixOf_iff_prefix.mpr ⟨rest, rfl⟩
    rw [if_pos front]
    exact ⟨_, rfl, rfl, by simp⟩

theorem takes_object {ms : JsonObject} :
    Takes (object d bs) ms rest ↔
      d < maxDepth ∧ ∃ body, bs = 0x7b :: body ∧
        ((skipWhitespace body = 0x7d :: rest ∧ ms = []) ∨
          ((∀ left, skipWhitespace body ≠ 0x7d :: left) ∧
            Takes (members (d + 1) [] body) ms rest)) := by
  constructor
  · rintro ⟨r, eq, rfl, rfl⟩
    rw [object] at eq
    split at eq
    next => cases eq
    next shallow =>
      obtain ⟨brace, hb, eq⟩ := Option.bind_eq_some_iff.mp eq
      refine ⟨Nat.lt_of_succ_le (Nat.le_of_not_lt shallow), brace.1, expect_eq_some.mp hb, ?_⟩
      split at eq
      next left close =>
        cases eq
        exact .inl ⟨close, rfl⟩
      next more =>
        obtain ⟨a, ha, done⟩ := Option.bind_eq_some_iff.mp eq
        cases done
        exact .inr ⟨more, a, ha, rfl, rfl⟩
  · rintro ⟨shallow, body, front, last⟩
    have deep : ¬ maxDepth < d + 1 := Nat.not_lt_of_le shallow
    obtain ⟨brace, hb, rfl⟩ := expect_of_eq front
    unfold Takes
    rw [object, if_neg deep, hb]
    simp only [bind, Option.bind_some]
    rcases last with ⟨close, rfl⟩ | ⟨unclosed, ⟨a, ha, rfl, rfl⟩⟩
    · split
      next left close' =>
        rw [close] at close'
        cases close'
        exact ⟨_, rfl, rfl, rfl⟩
      next more => exact absurd close (more rest)
    · split
      next left close => exact absurd close (unclosed left)
      next =>
        rw [ha]
        exact ⟨_, rfl, rfl, rfl⟩

theorem takes_array {v : Json} :
    Takes (array d bs) v rest ↔
      d < maxDepth ∧ ∃ body, bs = 0x5b :: body ∧
        ((skipWhitespace body = 0x5d :: rest ∧ v = .array []) ∨
          ((∀ left, skipWhitespace body ≠ 0x5d :: left) ∧
            ∃ vs, Takes (items (d + 1) body) vs rest ∧ v = .array vs)) := by
  constructor
  · rintro ⟨r, eq, rfl, rfl⟩
    rw [array] at eq
    split at eq
    next => cases eq
    next shallow =>
      obtain ⟨bracket, hb, eq⟩ := Option.bind_eq_some_iff.mp eq
      refine ⟨Nat.lt_of_succ_le (Nat.le_of_not_lt shallow), bracket.1, expect_eq_some.mp hb, ?_⟩
      split at eq
      next left close =>
        cases eq
        exact .inl ⟨close, rfl⟩
      next more =>
        obtain ⟨a, ha, done⟩ := Option.bind_eq_some_iff.mp eq
        cases done
        exact .inr ⟨more, a.value, ⟨a, ha, rfl, rfl⟩, rfl⟩
  · rintro ⟨shallow, body, front, last⟩
    have deep : ¬ maxDepth < d + 1 := Nat.not_lt_of_le shallow
    obtain ⟨bracket, hb, rfl⟩ := expect_of_eq front
    unfold Takes
    rw [array, if_neg deep, hb]
    simp only [bind, Option.bind_some]
    rcases last with ⟨close, rfl⟩ | ⟨unclosed, vs, ⟨a, ha, rfl, rfl⟩, rfl⟩
    · split
      next left close' =>
        rw [close] at close'
        cases close'
        exact ⟨_, rfl, rfl, rfl⟩
      next more => exact absurd close (more rest)
    · split
      next left close => exact absurd close (unclosed left)
      next =>
        rw [ha]
        exact ⟨_, rfl, rfl, rfl⟩

/-- One round of the loop over an array. -/
theorem takes_items {vs : List Json} :
    Takes (items d bs) vs rest ↔
      ∃ v after, Takes (value d (skipWhitespace bs)) v after ∧
        ((skipWhitespace after = 0x5d :: rest ∧ vs = [v]) ∨
          ∃ next ws, skipWhitespace after = 0x2c :: next ∧ Takes (items d next) ws rest ∧
            vs = v :: ws) := by
  constructor
  · rintro ⟨r, eq, rfl, rfl⟩
    rw [items] at eq
    obtain ⟨v, hv, eq⟩ := Option.bind_eq_some_iff.mp eq
    refine ⟨v.value, v.rest, ⟨v, hv, rfl, rfl⟩, ?_⟩
    dsimp only at eq
    split at eq
    next next comma =>
      obtain ⟨more, hm, done⟩ := Option.bind_eq_some_iff.mp eq
      cases done
      exact .inr ⟨next, more.value, comma, ⟨more, hm, rfl, rfl⟩, rfl⟩
    next close bracket =>
      cases eq
      exact .inl ⟨bracket, rfl⟩
    next => cases eq
  · rintro ⟨_, _, ⟨v, hv, rfl, rfl⟩, last⟩
    unfold Takes
    rw [items, hv]
    simp only [bind, Option.bind_some]
    rcases last with ⟨close, rfl⟩ | ⟨next, ws, comma, ⟨more, hm, rfl, rfl⟩, rfl⟩
    · split
      next next comma =>
        rw [close] at comma
        cases comma
      next close' bracket =>
        rw [close] at bracket
        cases bracket
        exact ⟨_, rfl, rfl, rfl⟩
      next notBracket => exact absurd close (notBracket rest)
    · split
      next next' comma' =>
        rw [comma] at comma'
        cases comma'
        rw [hm]
        exact ⟨_, rfl, rfl, rfl⟩
      next close bracket =>
        rw [comma] at bracket
        cases bracket
      next notComma _ => exact absurd comma (notComma next)

/-- One round of the loop over an object's members: a key already read is refused. -/
theorem takes_members {read ms : JsonObject} :
    Takes (members d read bs) ms rest ↔
      ∃ key afterKey body v after, Takes (string (skipWhitespace bs)) key afterKey ∧
        skipWhitespace afterKey = 0x3a :: body ∧ Takes (value d (skipWhitespace body)) v after ∧
        JsonObject.get read key = none ∧
        ((skipWhitespace after = 0x7d :: rest ∧ ms = read ++ [(key, v)]) ∨
          ∃ next, skipWhitespace after = 0x2c :: next ∧
            Takes (members d (read ++ [(key, v)]) next) ms rest) := by
  constructor
  · rintro ⟨r, eq, rfl, rfl⟩
    rw [members] at eq
    obtain ⟨key, hk, eq⟩ := Option.bind_eq_some_iff.mp eq
    obtain ⟨colon, hc, eq⟩ := Option.bind_eq_some_iff.mp eq
    obtain ⟨v, hv, eq⟩ := Option.bind_eq_some_iff.mp eq
    dsimp only at eq
    split at eq
    next => cases eq
    next fresh =>
      refine ⟨key.value, key.rest, colon.1, v.value, v.rest, ⟨key, hk, rfl, rfl⟩,
        expect_eq_some.mp hc, ⟨v, hv, rfl, rfl⟩, Option.not_isSome_iff_eq_none.mp fresh, ?_⟩
      split at eq
      next next comma =>
        obtain ⟨more, hm, done⟩ := Option.bind_eq_some_iff.mp eq
        cases done
        exact .inr ⟨next, comma, more, hm, rfl, rfl⟩
      next close brace =>
        cases eq
        exact .inl ⟨brace, rfl⟩
      next => cases eq
  · rintro ⟨_, _, body, _, _, ⟨key, hk, rfl, rfl⟩, colon, ⟨v, hv, rfl, rfl⟩, fresh, last⟩
    obtain ⟨opened, ho, rfl⟩ := expect_of_eq colon
    have unread : ¬ (JsonObject.get read key.value).isSome := by simp [fresh]
    unfold Takes
    rw [members, hk]
    simp only [bind, Option.bind_some, ho, hv, if_neg unread]
    rcases last with ⟨close, rfl⟩ | ⟨next, comma, more, hm, rfl, rfl⟩
    · split
      next next comma =>
        rw [close] at comma
        cases comma
      next close' brace =>
        rw [close] at brace
        cases brace
        exact ⟨_, rfl, rfl, rfl⟩
      next notBrace => exact absurd close (notBrace rest)
    · split
      next next' comma' =>
        rw [comma] at comma'
        cases comma'
        rw [hm]
        exact ⟨_, rfl, rfl, rfl⟩
      next close brace =>
        rw [comma] at brace
        cases brace
      next notComma _ => exact absurd comma (notComma next)

/-- A number starts with a digit or with its sign. -/
theorem number_front {b : UInt8} {v : Json} (h : number (b :: bs) = some (v, rest)) :
    b = 0x2d ∨ isDigit b := by
  by_contra no
  obtain ⟨sign, digit⟩ := not_or.mp no
  have zero : b ≠ 0x30 := by
    rintro rfl
    exact digit rfl
  have nothing : number (b :: bs) = none := by
    simp [number, takeIf, sign, wholePart, zero, digits, digit]
  rw [nothing] at h
  cases h

theorem string_front {s : String} (h : Takes (string bs) s rest) : ∃ body, bs = 0x22 :: body := by
  obtain ⟨r, eq, -, -⟩ := h
  obtain ⟨quote, hq, -⟩ := Option.bind_eq_some_iff.mp eq
  exact ⟨quote.1, expect_eq_some.mp hq⟩

/-- The first byte chooses the reader, and each reader insists on the bytes it is chosen by. -/
theorem takes_value {v : Json} :
    Takes (value d bs) v rest ↔
      (∃ ms, Takes (object d bs) ms rest ∧ v = .object ms) ∨ Takes (array d bs) v rest ∨
        (∃ s, Takes (string bs) s rest ∧ v = .str s) ∨
        Takes (literal "true" (.bool true) bs) v rest ∨
        Takes (literal "false" (.bool false) bs) v rest ∨ Takes (literal "null" .null bs) v rest ∨
        number bs = some (v, rest) := by
  constructor
  · intro h
    cases bs with
    | nil =>
      obtain ⟨r, eq, -⟩ := h
      rw [value] at eq
      cases eq
    | cons b bs =>
      unfold Takes at h
      rw [value] at h
      split at h
      next =>
        left
        exact (takes_bind (f := Json.object)).mp h
      next =>
      split at h
      next => exact .inr (.inl h)
      next =>
      split at h
      next =>
        right; right; left
        exact (takes_bind (f := Json.str)).mp h
      next =>
      split at h
      next => exact .inr (.inr (.inr (.inl h)))
      next =>
      split at h
      next => exact .inr (.inr (.inr (.inr (.inl h))))
      next =>
      split at h
      next => exact .inr (.inr (.inr (.inr (.inr (.inl h)))))
      next =>
      split at h
      next =>
        obtain ⟨r, eq, rfl, rfl⟩ := h
        split at eq
        next v left found =>
          cases eq
          exact .inr (.inr (.inr (.inr (.inr (.inr found)))))
        next => cases eq
      next =>
        obtain ⟨r, eq, -⟩ := h
        cases eq
  · rintro (⟨ms, h, rfl⟩ | h | ⟨s, h, rfl⟩ | h | h | h | h)
    · obtain ⟨-, body, rfl, -⟩ := takes_object.mp h
      unfold Takes
      rw [value, if_pos rfl]
      exact (takes_bind (f := Json.object)).mpr ⟨ms, h, rfl⟩
    · obtain ⟨-, body, rfl, -⟩ := takes_array.mp h
      unfold Takes
      rw [value, if_neg (by decide), if_pos rfl]
      exact h
    · obtain ⟨body, rfl⟩ := string_front h
      unfold Takes
      rw [value, if_neg (by decide), if_neg (by decide), if_pos rfl]
      exact (takes_bind (f := Json.str)).mpr ⟨s, h, rfl⟩
    · obtain ⟨front, -⟩ := takes_literal.mp h
      have first : bytes "true".toList = [0x74, 0x72, 0x75, 0x65] := rfl
      rw [first] at front
      subst front
      unfold Takes
      rw [List.cons_append, value, if_neg (by decide), if_neg (by decide), if_neg (by decide),
        if_pos rfl]
      exact h
    · obtain ⟨front, -⟩ := takes_literal.mp h
      have first : bytes "false".toList = [0x66, 0x61, 0x6c, 0x73, 0x65] := rfl
      rw [first] at front
      subst front
      unfold Takes
      rw [List.cons_append, value, if_neg (by decide), if_neg (by decide), if_neg (by decide),
        if_neg (by decide), if_pos rfl]
      exact h
    · obtain ⟨front, -⟩ := takes_literal.mp h
      have first : bytes "null".toList = [0x6e, 0x75, 0x6c, 0x6c] := rfl
      rw [first] at front
      subst front
      unfold Takes
      rw [List.cons_append, value, if_neg (by decide), if_neg (by decide), if_neg (by decide),
        if_neg (by decide), if_neg (by decide), if_pos rfl]
      exact h
    · cases bs with
      | nil => simp [number, takeIf, wholePart, digits] at h
      | cons b bs =>
        have front := number_front h
        have apart : ∀ x : UInt8, x ≠ 0x2d → isDigit x = false → b ≠ x := by
          rintro x sign digit rfl
          rcases front with same | same
          · exact sign same
          · rw [digit] at same
            cases same
        unfold Takes
        rw [value, if_neg (apart 0x7b (by decide) rfl), if_neg (apart 0x5b (by decide) rfl),
          if_neg (apart 0x22 (by decide) rfl), if_neg (apart 0x74 (by decide) rfl),
          if_neg (apart 0x66 (by decide) rfl), if_neg (apart 0x6e (by decide) rfl), if_pos front]
        split
        next v' left found =>
          rw [found] at h
          cases h
          exact ⟨_, rfl, rfl, rfl⟩
        next none =>
          rw [none] at h
          cases h

/-! ### What is read is in the grammar -/

/-- Spaces, then this character. -/
theorem spaces_of_skip {b : UInt8} {c : Char} (same : c.toNat = b.toNat) (small : b.toNat < 128)
    (h : skipWhitespace (bytes cs) = b :: rest) :
    ∃ cs', Spaces rfc8259 cs (c :: cs') ∧ rest = bytes cs' := by
  rw [skipWhitespace_bytes] at h
  obtain ⟨cs', eq, left⟩ := (bytes_front same small).mp h
  refine ⟨cs', ?_, left⟩
  rw [← eq]
  exact spaces_dropWhile cs

/-- A word in front. -/
theorem bytes_word {w : List Char} (ascii : ∀ c ∈ w, c.toNat < 128) :
    bytes cs = bytes w ++ rest ↔ ∃ cs', cs = w ++ cs' ∧ rest = bytes cs' := by
  constructor
  · intro h
    induction w generalizing cs with
    | nil => exact ⟨cs, rfl, h.symm⟩
    | cons c w ih =>
      have small := ascii c List.mem_cons_self
      have code : (UInt8.ofNat c.toNat).toNat = c.toNat := by
        rw [UInt8.toNat_ofNat', Nat.mod_eq_of_lt (by omega)]
      rw [bytes_ascii c w small, List.cons_append] at h
      obtain ⟨cs₁, rfl, left⟩ := (bytes_front code.symm (by omega)).mp h
      obtain ⟨cs', rfl, last⟩ := ih (fun d mem => ascii d (List.mem_cons_of_mem c mem)) left.symm
      exact ⟨cs', rfl, last⟩
  · rintro ⟨cs', rfl, rfl⟩
    simp [bytes]

/-- Everything that is read here is in the grammar. -/
structure Sound (cs : List Char) : Prop where
  value : ∀ {d : Nat} {v : Json} {rest : List UInt8}, Takes (value d (bytes cs)) v rest →
    ∃ cs', rest = bytes cs' ∧ Grammar.Value d cs v cs'
  object : ∀ {d : Nat} {ms : JsonObject} {rest : List UInt8}, Takes (object d (bytes cs)) ms rest →
    ∃ cs', rest = bytes cs' ∧ Grammar.Object d cs ms cs'
  items : ∀ {d : Nat} {vs : List Json} {rest : List UInt8}, Takes (items d (bytes cs)) vs rest →
    ∃ cs', rest = bytes cs' ∧ Grammar.Items d cs vs cs'
  members : ∀ {d : Nat} {read ms : JsonObject} {rest : List UInt8},
    Takes (members d read (bytes cs)) ms rest → (read.map Prod.fst).Nodup →
      ∃ cs' more, rest = bytes cs' ∧ ms = read ++ more ∧ (ms.map Prod.fst).Nodup ∧
        Grammar.Members d cs more cs'

section

-- The texts shorter than this one are read soundly.
variable (shorter : ∀ cs' : List Char, (bytes cs').length < (bytes cs).length → Sound cs')

include shorter

theorem sound_object {ms : JsonObject} (h : Takes (object d (bytes cs)) ms rest) :
    ∃ cs', rest = bytes cs' ∧ Grammar.Object d cs ms cs' := by
  obtain ⟨shallow, body, front, last⟩ := takes_object.mp h
  obtain ⟨inner, rfl, rfl⟩ := (bytes_front (c := '\x7b') rfl (by decide)).mp front
  rcases last with ⟨close, rfl⟩ | ⟨-, more⟩
  · obtain ⟨cs', spaces, left⟩ := spaces_of_skip (c := '\x7d') rfl (by decide) close
    exact ⟨cs', left, .empty shallow spaces⟩
  · have less : (bytes inner).length < (bytes ('\x7b' :: inner)).length := by
      rw [front]
      exact Nat.lt_succ_self _
    obtain ⟨cs', ms', left, same, distinct, inside⟩ :=
      (shorter inner less).members more List.nodup_nil
    rw [List.nil_append] at same
    subst same
    exact ⟨cs', left, .some shallow inside distinct⟩

theorem sound_array {v : Json} (h : Takes (array d (bytes cs)) v rest) :
    ∃ cs', rest = bytes cs' ∧ Grammar.Value d cs v cs' := by
  obtain ⟨shallow, body, front, last⟩ := takes_array.mp h
  obtain ⟨inner, rfl, rfl⟩ := (bytes_front (c := '[') rfl (by decide)).mp front
  rcases last with ⟨close, rfl⟩ | ⟨-, vs, more, rfl⟩
  · obtain ⟨cs', spaces, left⟩ := spaces_of_skip (c := ']') rfl (by decide) close
    exact ⟨cs', left, .emptyArray shallow spaces⟩
  · have less : (bytes inner).length < (bytes ('[' :: inner)).length := by
      rw [front]
      exact Nat.lt_succ_self _
    obtain ⟨cs', left, inside⟩ := (shorter inner less).items more
    exact ⟨cs', left, .array shallow inside⟩

theorem sound_value {v : Json} (h : Takes (value d (bytes cs)) v rest) :
    ∃ cs', rest = bytes cs' ∧ Grammar.Value d cs v cs' := by
  rcases takes_value.mp h with ⟨ms, read, rfl⟩ | h | ⟨s, read, rfl⟩ | h | h | h | h
  · obtain ⟨cs', left, inside⟩ := sound_object shorter read
    exact ⟨cs', left, .object inside⟩
  · exact sound_array shorter h
  · obtain ⟨body, t, cs', rfl, chars, rfl, left⟩ := takes_string.mp read
    exact ⟨cs', left, .string chars⟩
  · obtain ⟨front, rfl⟩ := takes_literal.mp h
    obtain ⟨cs', rfl, left⟩ := (bytes_word (by simp)).mp front
    exact ⟨cs', left, .yes⟩
  · obtain ⟨front, rfl⟩ := takes_literal.mp h
    obtain ⟨cs', rfl, left⟩ := (bytes_word (by simp)).mp front
    exact ⟨cs', left, .no⟩
  · obtain ⟨front, rfl⟩ := takes_literal.mp h
    obtain ⟨cs', rfl, left⟩ := (bytes_word (by simp)).mp front
    exact ⟨cs', left, .null⟩
  · obtain ⟨n, cs', strict, rfl, rfl, left⟩ := number_some h
    exact ⟨cs', left, .number n strict⟩

theorem sound_skipped {v : Json} (h : Takes (value d (skipWhitespace (bytes cs))) v rest) :
    ∃ value cs', Spaces rfc8259 cs value ∧ rest = bytes cs' ∧ Grammar.Value d value v cs' := by
  rw [skipWhitespace_bytes] at h
  have spaces := spaces_dropWhile cs
  by_cases less : (bytes (cs.dropWhile isSpace)).length < (bytes cs).length
  · obtain ⟨cs', left, inside⟩ := (shorter _ less).value h
    exact ⟨_, cs', spaces, left, inside⟩
  · have small := skipWhitespace_length (bytes cs)
    rw [skipWhitespace_bytes] at small
    have same : (bytes (cs.dropWhile isSpace)).length = (bytes cs).length := by omega
    rw [← same] at shorter
    obtain ⟨cs', left, inside⟩ := sound_value shorter h
    exact ⟨_, cs', spaces, left, inside⟩

theorem sound_items {vs : List Json} (h : Takes (items d (bytes cs)) vs rest) :
    ∃ cs', rest = bytes cs' ∧ Grammar.Items d cs vs cs' := by
  obtain ⟨v, after, read, last⟩ := takes_items.mp h
  have within : after.length ≤ (bytes cs).length :=
    Nat.le_trans read.length_le (skipWhitespace_length _)
  obtain ⟨value, behind, spaces, rfl, inside⟩ := sound_skipped shorter read
  rcases last with ⟨close, rfl⟩ | ⟨next, ws, comma, more, rfl⟩
  · obtain ⟨cs', closing, left⟩ := spaces_of_skip (c := ']') rfl (by decide) close
    exact ⟨cs', left, .last spaces inside closing⟩
  · have less := skipWhitespace_length (bytes behind)
    rw [comma, List.length_cons] at less
    obtain ⟨next, between, rfl⟩ := spaces_of_skip (c := ',') rfl (by decide) comma
    obtain ⟨cs', left, others⟩ := (shorter next (by omega)).items more
    exact ⟨cs', left, .more spaces inside between others⟩

theorem sound_members {read ms : JsonObject} (h : Takes (members d read (bytes cs)) ms rest)
    (distinct : (read.map Prod.fst).Nodup) :
    ∃ cs' more, rest = bytes cs' ∧ ms = read ++ more ∧ (ms.map Prod.fst).Nodup ∧
      Grammar.Members d cs more cs' := by
  obtain ⟨key, afterKey, body, v, after, readKey, colon, readValue, fresh, last⟩ :=
    takes_members.mp h
  have withinKey : afterKey.length ≤ (bytes cs).length :=
    Nat.le_trans readKey.length_le (skipWhitespace_length _)
  rw [skipWhitespace_bytes] at readKey
  obtain ⟨keyText, k, colonText, front, chars, rfl, rfl⟩ := takes_string.mp readKey
  have before : Spaces rfc8259 cs ('"' :: keyText) := by
    rw [← front]
    exact spaces_dropWhile cs
  have withinBody := skipWhitespace_length (bytes colonText)
  rw [colon, List.length_cons] at withinBody
  obtain ⟨bodyText, toColon, rfl⟩ := spaces_of_skip (c := ':') rfl (by decide) colon
  have withinValue : after.length ≤ (bytes bodyText).length :=
    Nat.le_trans readValue.length_le (skipWhitespace_length _)
  have shorterBody : ∀ cs' : List Char, (bytes cs').length < (bytes bodyText).length → Sound cs' :=
    fun cs' less => shorter cs' (by omega)
  obtain ⟨value, behind, toValue, rfl, inside⟩ := sound_skipped shorterBody readValue
  have distinct' : ((read ++ [(String.ofList k, v)]).map Prod.fst).Nodup := by
    rw [List.map_append, List.nodup_append]
    refine ⟨distinct, by simp, ?_⟩
    intro a mem b last
    rw [List.map_singleton, List.mem_singleton] at last
    rintro rfl
    obtain ⟨m, found, rfl⟩ := List.mem_map.mp mem
    have miss := List.lookup_eq_none_iff.mp fresh m found
    simp [last] at miss
  rcases last with ⟨close, rfl⟩ | ⟨next, comma, more⟩
  · obtain ⟨cs', closing, left⟩ := spaces_of_skip (c := '\x7d') rfl (by decide) close
    exact ⟨cs', _, left, rfl, distinct', .last before chars toColon toValue inside closing⟩
  · have less := skipWhitespace_length (bytes behind)
    rw [comma, List.length_cons] at less
    obtain ⟨next, between, rfl⟩ := spaces_of_skip (c := ',') rfl (by decide) comma
    obtain ⟨cs', others, left, rfl, all, rest⟩ :=
      (shorter next (by omega)).members more distinct'
    refine ⟨cs', (String.ofList k, v) :: others, left, by simp, all, ?_⟩
    exact .more before chars toColon toValue inside between rest

end

theorem sound (cs : List Char) : Sound cs := by
  induction n : (bytes cs).length using Nat.strong_induction_on generalizing cs with
  | _ n ih =>
    subst n
    have shorter : ∀ cs' : List Char, (bytes cs').length < (bytes cs).length → Sound cs' :=
      fun cs' less => ih _ less cs' rfl
    exact ⟨sound_value shorter, sound_object shorter, sound_items shorter, sound_members shorter⟩

/-! ### What is in the grammar is read -/

theorem skip_of_spaces {c : Char} {cs' : List Char} (spaces : Spaces rfc8259 cs (c :: cs'))
    (stop : isSpace c = false) : skipWhitespace (bytes cs) = bytes (c :: cs') := by
  rw [skipWhitespace_bytes, dropWhile_of_spaces spaces]
  intro x head
  cases head
  exact stop

/-- How a value starts. -/
theorem value_front {v : Json} {cs' : List Char} (h : Grammar.Value d cs v cs') :
    ∃ c tail, cs = c :: tail ∧ isSpace c = false ∧ c ≠ ']' := by
  cases h with
  | null => exact ⟨'n', _, rfl, rfl, by decide⟩
  | yes => exact ⟨'t', _, rfl, rfl, by decide⟩
  | no => exact ⟨'f', _, rfl, rfl, by decide⟩
  | number n strict =>
    obtain ⟨c, w, whole⟩ := List.exists_cons_of_ne_nil strict.someWhole
    have digit : Hecks.Json.Parser.isDigit c := strict.whole c (by simp [whole])
    unfold Numeral.text
    cases n.minus with
    | true => exact ⟨'-', _, rfl, rfl, by decide⟩
    | false =>
      refine ⟨c, _, by rw [whole]; rfl, ?_, ?_⟩
      · by_contra space
        rw [Bool.not_eq_false] at space
        have cases : c = ' ' ∨ c = '\t' ∨ c = '\n' ∨ c = '\r' := by
          simpa [isSpace, or_assoc] using space
        rcases cases with rfl | rfl | rfl | rfl
        all_goals simp [Hecks.Json.Parser.isDigit, Text.digit?] at digit
      · rintro rfl
        simp [Hecks.Json.Parser.isDigit, Text.digit?] at digit
  | string => exact ⟨'"', _, rfl, rfl, by decide⟩
  | emptyArray => exact ⟨'[', _, rfl, rfl, by decide⟩
  | array => exact ⟨'[', _, rfl, rfl, by decide⟩
  | object inside =>
    cases inside with
    | empty => exact ⟨'\x7b', _, rfl, rfl, by decide⟩
    | some => exact ⟨'\x7b', _, rfl, rfl, by decide⟩

theorem skip_to_value {v : Json} {value cs' : List Char} (spaces : Spaces rfc8259 cs value)
    (h : Grammar.Value d value v cs') : skipWhitespace (bytes cs) = bytes value := by
  obtain ⟨c, tail, rfl, stop, -⟩ := value_front h
  exact skip_of_spaces spaces stop

/-- What a word spells, the reader reads. -/
theorem takes_word {word : String} {v : Json} {cs' : List Char} :
    Takes (literal word v (bytes (word.toList ++ cs'))) v (bytes cs') :=
  takes_literal.mpr ⟨bytes_append, rfl⟩

theorem items_open {vs : List Json} {cs' : List Char} (h : Grammar.Items d cs vs cs')
    (left : List UInt8) : skipWhitespace (bytes cs) ≠ 0x5d :: left := by
  have front : ∀ {value after : List Char} {v : Json}, Spaces rfc8259 cs value →
      Grammar.Value d value v after → skipWhitespace (bytes cs) ≠ 0x5d :: left := by
    intro value after v spaces h close
    obtain ⟨c, tail, rfl, -, notBracket⟩ := value_front h
    rw [skip_to_value spaces h] at close
    obtain ⟨_, same, -⟩ := (bytes_front (c := ']') rfl (by decide)).mp close
    exact notBracket (List.cons.inj same).1
  cases h with
  | last spaces h _ => exact front spaces h
  | more spaces h _ _ => exact front spaces h

theorem members_open {ms : JsonObject} {cs' : List Char} (h : Grammar.Members d cs ms cs')
    (left : List UInt8) : skipWhitespace (bytes cs) ≠ 0x7d :: left := by
  have front : ∀ {key : List Char}, Spaces rfc8259 cs ('"' :: key) →
      skipWhitespace (bytes cs) ≠ 0x7d :: left := by
    intro key spaces close
    rw [skip_of_spaces spaces rfl] at close
    obtain ⟨_, same, -⟩ := (bytes_front (c := '\x7d') rfl (by decide)).mp close
    cases same
  cases h with
  | last before => exact front before
  | more before => exact front before

theorem fresh_of_nodup {read ms : JsonObject} {key : String} {v : Json}
    (distinct : ((read ++ (key, v) :: ms).map Prod.fst).Nodup) : JsonObject.get read key = none := by
  apply List.lookup_eq_none_iff.mpr
  intro m mem
  rw [List.map_append, List.nodup_append] at distinct
  have apart := distinct.2.2 m.1 (List.mem_map_of_mem mem) key (by simp)
  simpa using Ne.symm apart

/-- One member, from its parts: what comes behind it stays to be read. -/
theorem takes_member {read ms : JsonObject} {v : Json} {key k colon body value after : List Char}
    (before : Spaces rfc8259 cs ('"' :: key)) (chars : Chars key k colon)
    (toColon : Spaces rfc8259 colon (':' :: body)) (toValue : Spaces rfc8259 body value)
    (inside : Grammar.Value d value v after)
    (reads : Takes (StrictJson.value d (bytes value)) v (bytes after))
    (fresh : JsonObject.get read (String.ofList k) = none)
    (last : (skipWhitespace (bytes after) = 0x7d :: rest ∧ ms = read ++ [(String.ofList k, v)]) ∨
      ∃ next, skipWhitespace (bytes after) = 0x2c :: next ∧
        Takes (members d (read ++ [(String.ofList k, v)]) next) ms rest) :
    Takes (members d read (bytes cs)) ms rest := by
  apply takes_members.mpr
  refine ⟨String.ofList k, bytes colon, bytes body, v, bytes after, ?_, skip_of_spaces toColon rfl,
    ?_, fresh, last⟩
  · rw [skip_of_spaces before rfl]
    exact takes_string.mpr ⟨key, k, colon, rfl, chars, rfl, rfl⟩
  · rw [skip_to_value toValue inside]
    exact reads

mutual

theorem takes_of_value {d : Nat} {cs cs' : List Char} {v : Json} :
    Grammar.Value d cs v cs' → Hecks.Json.Grammar.Follows cs' →
      Takes (value d (bytes cs)) v (bytes cs')
  | .null, _ => takes_value.mpr (.inr (.inr (.inr (.inr (.inr (.inl takes_word))))))
  | .yes, _ => takes_value.mpr (.inr (.inr (.inr (.inl takes_word))))
  | .no, _ => takes_value.mpr (.inr (.inr (.inr (.inr (.inl takes_word)))))
  | .number n strict, follows =>
    takes_value.mpr (.inr (.inr (.inr (.inr (.inr (.inr (number_of strict follows)))))))
  | .string chars, _ =>
    takes_value.mpr (.inr (.inr (.inl ⟨_, takes_string.mpr ⟨_, _, _, rfl, chars, rfl, rfl⟩, rfl⟩)))
  | .emptyArray shallow close, _ => by
    apply takes_value.mpr
    right; left
    apply takes_array.mpr
    exact ⟨shallow, _, rfl, .inl ⟨skip_of_spaces close rfl, rfl⟩⟩
  | .array shallow h, _ => by
    apply takes_value.mpr
    right; left
    apply takes_array.mpr
    exact ⟨shallow, _, rfl, .inr ⟨items_open h, _, takes_of_items h, rfl⟩⟩
  | .object h, _ => takes_value.mpr (.inl ⟨_, takes_of_object h, rfl⟩)

theorem takes_of_object {d : Nat} {cs cs' : List Char} {ms : JsonObject} :
    Grammar.Object d cs ms cs' → Takes (object d (bytes cs)) ms (bytes cs')
  | .empty shallow close =>
    takes_object.mpr ⟨shallow, _, rfl, .inl ⟨skip_of_spaces close rfl, rfl⟩⟩
  | .some shallow h distinct =>
    takes_object.mpr ⟨shallow, _, rfl, .inr ⟨members_open h, takes_of_members h [] distinct⟩⟩

theorem takes_of_items {d : Nat} {cs cs' : List Char} {vs : List Json} :
    Grammar.Items d cs vs cs' → Takes (items d (bytes cs)) vs (bytes cs')
  | .last spaces h close => by
    apply takes_items.mpr
    rw [skip_to_value spaces h]
    exact ⟨_, _, takes_of_value h (follows_bracket close), .inl ⟨skip_of_spaces close rfl, rfl⟩⟩
  | .more spaces h comma more => by
    apply takes_items.mpr
    rw [skip_to_value spaces h]
    exact ⟨_, _, takes_of_value h (follows_comma comma),
      .inr ⟨_, _, skip_of_spaces comma rfl, takes_of_items more, rfl⟩⟩

theorem takes_of_members {d : Nat} {cs cs' : List Char} {ms : JsonObject} :
    Grammar.Members d cs ms cs' → ∀ read : JsonObject, ((read ++ ms).map Prod.fst).Nodup →
      Takes (members d read (bytes cs)) (read ++ ms) (bytes cs')
  | .last before chars toColon toValue h close, _, distinct =>
    takes_member before chars toColon toValue h (takes_of_value h (follows_brace close))
      (fresh_of_nodup distinct) (.inl ⟨skip_of_spaces close rfl, rfl⟩)
  | .more (k := k) (v := v) before chars toColon toValue h comma more, read, distinct => by
    apply takes_member before chars toColon toValue h (takes_of_value h (follows_comma comma))
      (fresh_of_nodup distinct)
    have others := takes_of_members more (read ++ [(String.ofList k, v)]) (by simpa using distinct)
    rw [List.append_assoc] at others
    exact .inr ⟨_, skip_of_spaces comma rfl, others⟩

end

theorem parseObject_eq_some {ms : JsonObject} :
    parseObject bs = some ms ↔ ∃ cs after, bs = bytes cs ∧
      Takes (object 0 (skipWhitespace (bytes cs))) ms after ∧ skipWhitespace after = [] := by
  constructor
  · intro h
    obtain ⟨cs, text, h⟩ := Option.bind_eq_some_iff.mp h
    obtain ⟨r, read, h⟩ := Option.bind_eq_some_iff.mp h
    split at h
    next ended =>
      cases h
      exact ⟨cs, r.rest, fromUtf8_eq_some.mp text, ⟨r, read, rfl, rfl⟩, ended⟩
    next => cases h
  · rintro ⟨cs, _, rfl, ⟨r, read, rfl, rfl⟩, ended⟩
    have text : fromUtf8 (bytes cs) = some cs := fromUtf8_eq_some.mpr rfl
    simp only [parseObject, bind, text, Option.bind_some, read, if_pos ended]

/-- The reader accepts the documents of its grammar and no other bytes, and reads of each the
object it spells. -/
theorem parseObject_exact (bs : List UInt8) (ms : JsonObject) :
    parseObject bs = some ms ↔ ∃ cs, bs = bytes cs ∧ Document cs ms := by
  rw [parseObject_eq_some]
  constructor
  · rintro ⟨cs, left, rfl, read, ended⟩
    rw [skipWhitespace_bytes] at read
    obtain ⟨after, rfl, inside⟩ := (sound (cs.dropWhile isSpace)).object read
    rw [skipWhitespace_bytes, bytes_eq_nil] at ended
    have behind := spaces_dropWhile after
    rw [ended] at behind
    exact ⟨cs, rfl, _, after, spaces_dropWhile cs, inside, behind⟩
  · rintro ⟨cs, rfl, value, after, before, inside, behind⟩
    refine ⟨cs, bytes after, rfl, ?_, ?_⟩
    · rw [skip_to_value before (.object inside)]
      exact takes_of_object inside
    · rw [skipWhitespace_bytes, dropWhile_of_spaces behind (by simp)]
      rfl

end Hecks.Signin.StrictJson
