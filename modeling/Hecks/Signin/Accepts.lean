import Mathlib
import Hecks.Signin.Grammar

/-! The token reader accepts exactly its grammar, and reads what the grammar says. -/

namespace Hecks.Signin.StrictJson

open Slices
open Grammar (Chars escapes numeral exact)
open Hecks.Json.Grammar (Numeral rfc8259 Spaces)

variable {n : Nat} {cs t : List Char} {bs rest out : List UInt8}

/-- The step succeeds with this value and leaves these bytes. -/
def Takes {α : Type} (x : Option (Took α n)) (v : α) (rest : List UInt8) : Prop :=
  ∃ r, x = some r ∧ r.value = v ∧ r.rest = rest

theorem Takes.length_le {α : Type} {x : Option (Took α n)} {v : α} (h : Takes x v rest) :
    rest.length ≤ n := by
  obtain ⟨r, -, -, rfl⟩ := h
  exact r.within

/-- A step that reshapes what another one read. -/
theorem takes_bind {α β : Type} {m : Nat} {x : Option (Took α n)} {f : α → β}
    {within : ∀ r : Took α n, r.rest.length ≤ m} {v : β} :
    Takes (x.bind fun r => some (⟨f r.value, r.rest, within r⟩ : Took β m)) v rest ↔
      ∃ u, Takes x u rest ∧ v = f u := by
  constructor
  · rintro ⟨r, eq, rfl, rfl⟩
    obtain ⟨a, hx, done⟩ := Option.bind_eq_some_iff.mp eq
    cases done
    exact ⟨a.value, ⟨a, hx, rfl, rfl⟩, rfl⟩
  · rintro ⟨u, ⟨a, rfl, rfl, rfl⟩, rfl⟩
    exact ⟨_, rfl, rfl, rfl⟩

theorem fromUtf8_eq_some : fromUtf8 bs = some cs ↔ bs = bytes cs := by
  have encode : (bytes cs).toByteArray = cs.utf8Encode := rfl
  unfold fromUtf8
  constructor
  · intro h
    obtain ⟨decoded, found, rfl⟩ := Option.map_eq_some_iff.mp h
    have some : (bs.toByteArray.utf8Decode?).isSome := by rw [found]; rfl
    have back := ByteArray.utf8Encode_get_utf8Decode? (h := some)
    have same : bs.toByteArray.utf8Decode?.get some = decoded := by simp [found]
    rw [same] at back
    exact (List.toByteArray_inj.mp back).symm
  · rintro rfl
    rw [encode, List.utf8Decode?_utf8Encode]
    rfl

theorem expect_eq_some {b : UInt8} {r : { rest : List UInt8 // rest.length < bs.length }} :
    expect b bs = some r ↔ bs = b :: r.1 := by
  cases bs with
  | nil => simp [expect]
  | cons d ds =>
    by_cases same : d = b
    · rw [expect, if_pos same, Option.some.injEq, List.cons.injEq]
      constructor
      · rintro rfl
        exact ⟨same, rfl⟩
      · rintro ⟨-, eq⟩
        exact Subtype.ext eq
    · simp [expect, same]

/-! ### Strings -/

theorem hexDigit?_char {b : UInt8} {c : Char} (same : c.toNat = b.toNat) :
    hexDigit? b = Text.hexDigit? c := by
  unfold hexDigit? Text.hexDigit?
  have digit : (0x30 ≤ b ∧ b ≤ 0x39) ↔ ('0' ≤ c ∧ c ≤ '9') := by
    simp only [UInt8.le_iff_toNat_le, Char.le_def, UInt32.le_iff_toNat_le]
    show _ ↔ (48 ≤ c.toNat ∧ c.toNat ≤ 57)
    rw [same]
    rfl
  have lower : (0x61 ≤ b ∧ b ≤ 0x66) ↔ ('a' ≤ c ∧ c ≤ 'f') := by
    simp only [UInt8.le_iff_toNat_le, Char.le_def, UInt32.le_iff_toNat_le]
    show _ ↔ (97 ≤ c.toNat ∧ c.toNat ≤ 102)
    rw [same]
    rfl
  have upper : (0x41 ≤ b ∧ b ≤ 0x46) ↔ ('A' ≤ c ∧ c ≤ 'F') := by
    simp only [UInt8.le_iff_toNat_le, Char.le_def, UInt32.le_iff_toNat_le]
    show _ ↔ (65 ≤ c.toNat ∧ c.toNat ≤ 70)
    rw [same]
    rfl
  simp only [digit, lower, upper]
  split
  next h => rw [same]; rfl
  next =>
  split
  next h =>
    have := h.1
    simp only [Char.le_def, UInt32.le_iff_toNat_le] at this
    change 97 ≤ c.toNat at this
    rw [Option.some.injEq, ← same]
    show c.toNat - 0x57 = c.toNat - 97 + 10
    omega
  next =>
  split
  next h =>
    have := h.1
    simp only [Char.le_def, UInt32.le_iff_toNat_le] at this
    change 65 ≤ c.toNat at this
    rw [Option.some.injEq, ← same]
    show c.toNat - 0x37 = c.toNat - 65 + 10
    omega
  next => rfl

theorem hexDigit?_ascii {b : UInt8} {k : Nat} (h : hexDigit? b = some k) : b.toNat < 128 := by
  unfold hexDigit? at h
  simp only [UInt8.le_iff_toNat_le] at h
  split at h
  next d => exact lt_of_le_of_lt d.2 (by decide)
  next =>
  split at h
  next d => exact lt_of_le_of_lt d.2 (by decide)
  next =>
  split at h
  next d => exact lt_of_le_of_lt d.2 (by decide)
  next => cases h

theorem hexDigit?_ascii_char {c : Char} {k : Nat} (h : Text.hexDigit? c = some k) :
    c.toNat < 128 := by
  unfold Text.hexDigit? at h
  simp only [Char.le_def, UInt32.le_iff_toNat_le] at h
  split at h
  next d => exact lt_of_le_of_lt d.2 (by decide)
  next =>
  split at h
  next d => exact lt_of_le_of_lt d.2 (by decide)
  next =>
  split at h
  next d => exact lt_of_le_of_lt d.2 (by decide)
  next => cases h

/-- The first hexadecimal digit of a text. -/
theorem bytes_hexDigit {b : UInt8} {k : Nat} (h : bytes cs = b :: bs) (digit : hexDigit? b = some k) :
    ∃ c cs', cs = c :: cs' ∧ Text.hexDigit? c = some k ∧ bs = bytes cs' := by
  obtain ⟨c, cs', rfl, same, left⟩ := bytes_eq_cons h (hexDigit?_ascii digit)
  exact ⟨c, cs', rfl, by rw [← hexDigit?_char same]; exact digit, left⟩

theorem hexDigit_bytes (cs : List Char) {c : Char} {k : Nat} (digit : Text.hexDigit? c = some k) :
    ∃ b, bytes (c :: cs) = b :: bytes cs ∧ hexDigit? b = some k := by
  have small := hexDigit?_ascii_char digit
  refine ⟨UInt8.ofNat c.toNat, by rw [bytes_cons, encode_ascii small]; rfl, ?_⟩
  rw [hexDigit?_char (c := c), digit]
  rw [UInt8.toNat_ofNat', Nat.mod_eq_of_lt (by omega)]

theorem takes_hex4 {code : Nat} :
    Takes (hex4 bs) code rest ↔ ∃ a b c d, bs = a :: b :: c :: d :: rest ∧
      ∃ i j k l, hexDigit? a = some i ∧ hexDigit? b = some j ∧ hexDigit? c = some k ∧
        hexDigit? d = some l ∧ code = ((i * 16 + j) * 16 + k) * 16 + l := by
  constructor
  · rintro ⟨r, eq, rfl, rfl⟩
    rcases bs with _ | ⟨a, _ | ⟨b, _ | ⟨c, _ | ⟨d, tail⟩⟩⟩⟩
    · cases eq
    · cases eq
    · cases eq
    · cases eq
    · rw [hex4] at eq
      obtain ⟨i, hi, eq⟩ := Option.bind_eq_some_iff.mp eq
      obtain ⟨j, hj, eq⟩ := Option.bind_eq_some_iff.mp eq
      obtain ⟨k, hk, eq⟩ := Option.bind_eq_some_iff.mp eq
      obtain ⟨l, hl, eq⟩ := Option.bind_eq_some_iff.mp eq
      cases eq
      exact ⟨a, b, c, d, rfl, i, j, k, l, hi, hj, hk, hl, rfl⟩
  · rintro ⟨a, b, c, d, rfl, i, j, k, l, hi, hj, hk, hl, rfl⟩
    refine ⟨⟨_, rest, by simp only [List.length_cons]; omega⟩, ?_, rfl, rfl⟩
    simp only [hex4, hi, hj, hk, hl, Option.bind_some]

theorem hexValue_four {a b c d : Char} {code : Nat} :
    Text.hexValue [a, b, c, d] 0 = some code ↔
      ∃ i j k l, Text.hexDigit? a = some i ∧ Text.hexDigit? b = some j ∧ Text.hexDigit? c = some k ∧
        Text.hexDigit? d = some l ∧ code = ((i * 16 + j) * 16 + k) * 16 + l := by
  simp only [Text.hexValue, Option.bind_eq_some_iff, Option.some.injEq]
  constructor
  · rintro ⟨i, hi, j, hj, k, hk, l, hl, rfl⟩
    exact ⟨i, j, k, l, hi, hj, hk, hl, by ring⟩
  · rintro ⟨i, j, k, l, hi, hj, hk, hl, rfl⟩
    exact ⟨i, hi, j, hj, k, hk, l, hl, by ring⟩

/-- The four digits of an escape, in bytes and in characters. -/
theorem takes_hex4_bytes {code : Nat} :
    Takes (hex4 (bytes cs)) code rest ↔ ∃ a b c d cs', cs = a :: b :: c :: d :: cs' ∧
      Text.hexValue [a, b, c, d] 0 = some code ∧ rest = bytes cs' := by
  rw [takes_hex4]
  constructor
  · rintro ⟨w, x, y, z, eq, i, j, k, l, hi, hj, hk, hl, value⟩
    obtain ⟨a, cs₁, rfl, ha, eq⟩ := bytes_hexDigit eq hi
    obtain ⟨b, cs₂, rfl, hb, eq⟩ := bytes_hexDigit eq.symm hj
    obtain ⟨c, cs₃, rfl, hc, eq⟩ := bytes_hexDigit eq.symm hk
    obtain ⟨d, cs₄, rfl, hd, eq⟩ := bytes_hexDigit eq.symm hl
    exact ⟨a, b, c, d, cs₄, rfl, hexValue_four.mpr ⟨i, j, k, l, ha, hb, hc, hd, value⟩, eq⟩
  · rintro ⟨a, b, c, d, cs', rfl, value, rfl⟩
    obtain ⟨i, j, k, l, ha, hb, hc, hd, value⟩ := hexValue_four.mp value
    obtain ⟨w, first, hi⟩ := hexDigit_bytes (b :: c :: d :: cs') ha
    obtain ⟨x, second, hj⟩ := hexDigit_bytes (c :: d :: cs') hb
    obtain ⟨y, third, hk⟩ := hexDigit_bytes (d :: cs') hc
    obtain ⟨z, fourth, hl⟩ := hexDigit_bytes cs' hd
    exact ⟨w, x, y, z, by rw [first, second, third, fourth], i, j, k, l, hi, hj, hk, hl, value⟩

theorem encoded_eq_some {code : Nat} :
    encoded code = some out ↔ code.isValidChar ∧ out = String.utf8EncodeChar (Char.ofNat code) := by
  unfold encoded
  split
  next valid => simp [valid, eq_comm]
  next invalid => simp [invalid]

theorem expect_of_eq {b : UInt8} (h : bs = b :: rest) :
    ∃ r, expect b bs = some r ∧ r.1 = rest := by
  subst h
  exact ⟨⟨rest, Nat.lt_succ_self _⟩, by simp [expect], rfl⟩

/-- What stands behind `\u`, in characters. -/
inductive Escaped : List Char → Char → List Char → Prop
  | plain {a b c d cs} {code : Nat} : Text.hexValue [a, b, c, d] 0 = some code →
      code.isValidChar → Escaped (a :: b :: c :: d :: cs) (Char.ofNat code) cs
  | pair {a b c d a' b' c' d' cs} {high low : Nat} :
      Text.hexValue [a, b, c, d] 0 = some high → Text.hexValue [a', b', c', d'] 0 = some low →
      0xD800 ≤ high → high ≤ 0xDBFF → 0xDC00 ≤ low → low ≤ 0xDFFF →
      Escaped (a :: b :: c :: d :: '\\' :: 'u' :: a' :: b' :: c' :: d' :: cs)
        (Char.ofNat (0x10000 + (high - 0xD800) * 0x400 + (low - 0xDC00))) cs

/-- An ASCII character in front. -/
theorem bytes_ascii (c : Char) (cs : List Char) (small : c.toNat < 128) :
    bytes (c :: cs) = UInt8.ofNat c.toNat :: bytes cs := by
  rw [bytes_cons, encode_ascii small]
  rfl

theorem bytes_front {b : UInt8} {c : Char} (same : c.toNat = b.toNat) (small : b.toNat < 128) :
    bytes cs = b :: rest ↔ ∃ cs', cs = c :: cs' ∧ rest = bytes cs' := by
  constructor
  · intro h
    obtain ⟨d, cs', rfl, code, left⟩ := bytes_eq_cons h small
    have eq : d = c := Char.toNat_inj.mp (code.trans same.symm)
    exact ⟨cs', by rw [eq], left⟩
  · rintro ⟨cs', rfl, rfl⟩
    rw [bytes_ascii c cs' (by omega), same, UInt8.ofNat_toNat]

theorem takes_unicodeEscape :
    Takes (unicodeEscape (bytes cs)) out rest ↔
      ∃ c cs', Escaped cs c cs' ∧ out = String.utf8EncodeChar c ∧ rest = bytes cs' := by
  constructor
  · rintro ⟨r, eq, rfl, rfl⟩
    obtain ⟨first, hf, eq⟩ := Option.bind_eq_some_iff.mp eq
    obtain ⟨a, b, c, d, cs₁, rfl, high, left⟩ := takes_hex4_bytes.mp ⟨first, hf, rfl, rfl⟩
    split at eq
    next surrogate =>
      obtain ⟨slash, hs, eq⟩ := Option.bind_eq_some_iff.mp eq
      obtain ⟨u, hu, eq⟩ := Option.bind_eq_some_iff.mp eq
      obtain ⟨second, h2, eq⟩ := Option.bind_eq_some_iff.mp eq
      have slashes := left.symm.trans (expect_eq_some.mp hs)
      obtain ⟨cs₂, rfl, afterSlash⟩ := (bytes_front (c := '\\') rfl (by decide)).mp slashes
      have us := afterSlash.symm.trans (expect_eq_some.mp hu)
      obtain ⟨cs₃, rfl, afterU⟩ := (bytes_front (c := 'u') rfl (by decide)).mp us
      have read : Takes (hex4 (bytes cs₃)) second.value second.rest := by
        rw [← afterU]
        exact ⟨second, h2, rfl, rfl⟩
      obtain ⟨a', b', c', d', cs₄, rfl, low, last⟩ := takes_hex4_bytes.mp read
      split at eq
      next tail =>
        obtain ⟨code, hc, eq⟩ := Option.bind_eq_some_iff.mp eq
        have same := (encoded_eq_some.mp hc).2
        cases eq
        exact ⟨_, cs₄, .pair high low surrogate.1 surrogate.2 tail.1 tail.2, same, last⟩
      next => cases eq
    next lone =>
      split at eq
      next => cases eq
      next =>
        obtain ⟨code, hc, eq⟩ := Option.bind_eq_some_iff.mp eq
        obtain ⟨valid, rfl⟩ := encoded_eq_some.mp hc
        cases eq
        exact ⟨_, cs₁, .plain high valid, rfl, left⟩
  · rintro ⟨ch, cs', escaped, rfl, rfl⟩
    cases escaped with
    | @plain a b c d _ code value valid =>
      obtain ⟨first, hf, code', left⟩ :=
        takes_hex4_bytes.mpr ⟨a, b, c, d, cs', rfl, value, rfl⟩
      have low : ¬ (0xD800 ≤ first.value ∧ first.value ≤ 0xDBFF) := by
        rw [code']
        unfold Nat.isValidChar at valid
        omega
      have high : ¬ (0xDC00 ≤ first.value ∧ first.value ≤ 0xDFFF) := by
        rw [code']
        unfold Nat.isValidChar at valid
        omega
      have enc := encoded_eq_some.mpr ⟨valid, rfl⟩
      refine ⟨⟨_, first.rest, first.within⟩, ?_, rfl, left⟩
      simp only [unicodeEscape, bind, hf, Option.bind_some, if_neg low, if_neg high]
      rw [code', enc]
      rfl
    | @pair a b c d a' b' c' d' _ high low value value' lower upper lower' upper' =>
      obtain ⟨first, hf, code, left⟩ := takes_hex4_bytes.mpr
        ⟨a, b, c, d, '\\' :: 'u' :: a' :: b' :: c' :: d' :: cs', rfl, value, rfl⟩
      have backslash : first.rest = 0x5c :: bytes ('u' :: a' :: b' :: c' :: d' :: cs') :=
        left.trans ((bytes_front (c := '\\') rfl (by decide)).mpr ⟨_, rfl, rfl⟩)
      obtain ⟨slash, hs, us⟩ := expect_of_eq backslash
      have u : slash.1 = 0x75 :: bytes (a' :: b' :: c' :: d' :: cs') :=
        us.trans ((bytes_front (c := 'u') rfl (by decide)).mpr ⟨_, rfl, rfl⟩)
      obtain ⟨u, hu, digits⟩ := expect_of_eq u
      have read : Takes (hex4 u.1) low (bytes cs') := by
        rw [digits]
        exact takes_hex4_bytes.mpr ⟨a', b', c', d', cs', rfl, value', rfl⟩
      obtain ⟨second, h2, code', last⟩ := read
      have valid : (0x10000 + (high - 0xD800) * 0x400 + (low - 0xDC00)).isValidChar := by
        unfold Nat.isValidChar
        omega
      obtain ⟨enc, found⟩ : ∃ enc, encoded (0x10000 + (first.value - 0xD800) * 0x400 +
          (second.value - 0xDC00)) = some enc := by
        rw [code, code']
        exact ⟨_, encoded_eq_some.mpr ⟨valid, rfl⟩⟩
      have same := (encoded_eq_some.mp found).2
      rw [code, code'] at same
      refine ⟨⟨enc, second.rest, ?_⟩, ?_, same, last⟩
      · have := first.within
        have := slash.2
        have := u.2
        have := second.within
        omega
      · have surrogate : 0xD800 ≤ first.value ∧ first.value ≤ 0xDBFF := by omega
        have tail : 0xDC00 ≤ second.value ∧ second.value ≤ 0xDFFF := by omega
        simp only [unicodeEscape, bind, hf, Option.bind_some, if_pos surrogate, hs, hu, h2,
          if_pos tail, found]

theorem Escaped.length_lt {c : Char} {cs' : List Char} (h : Escaped cs c cs') :
    cs'.length < cs.length := by
  cases h with
  | plain => simp only [List.length_cons]; omega
  | pair => simp only [List.length_cons]; omega

theorem simpleEscape_eq_some {b o : UInt8} :
    simpleEscape b = some o ↔
      ∃ e c, (e, c) ∈ escapes ∧ b = UInt8.ofNat e.toNat ∧ o = UInt8.ofNat c.toNat := by
  unfold simpleEscape escapes
  constructor
  · intro h
    split at h
    next eq => cases h; exact ⟨'"', '"', by simp, eq, rfl⟩
    next =>
    split at h
    next eq => cases h; exact ⟨'\\', '\\', by simp, eq, rfl⟩
    next =>
    split at h
    next eq => cases h; exact ⟨'/', '/', by simp, eq, rfl⟩
    next =>
    split at h
    next eq => cases h; exact ⟨'b', '\x08', by simp, eq, rfl⟩
    next =>
    split at h
    next eq => cases h; exact ⟨'f', '\x0c', by simp, eq, rfl⟩
    next =>
    split at h
    next eq => cases h; exact ⟨'n', '\n', by simp, eq, rfl⟩
    next =>
    split at h
    next eq => cases h; exact ⟨'r', '\r', by simp, eq, rfl⟩
    next =>
    split at h
    next eq => cases h; exact ⟨'t', '\t', by simp, eq, rfl⟩
    next => cases h
  · rintro ⟨e, c, mem, rfl, rfl⟩
    simp only [List.mem_cons, Prod.mk.injEq, List.not_mem_nil, or_false] at mem
    rcases mem with ⟨rfl, rfl⟩ | ⟨rfl, rfl⟩ | ⟨rfl, rfl⟩ | ⟨rfl, rfl⟩ | ⟨rfl, rfl⟩ | ⟨rfl, rfl⟩ |
      ⟨rfl, rfl⟩ | ⟨rfl, rfl⟩
    all_goals rfl

theorem escapes_ascii {e c : Char} (mem : (e, c) ∈ escapes) :
    e.toNat < 128 ∧ c.toNat < 128 ∧ e ≠ 'u' := by
  simp only [escapes, List.mem_cons, Prod.mk.injEq, List.not_mem_nil, or_false] at mem
  rcases mem with ⟨rfl, rfl⟩ | ⟨rfl, rfl⟩ | ⟨rfl, rfl⟩ | ⟨rfl, rfl⟩ | ⟨rfl, rfl⟩ | ⟨rfl, rfl⟩ |
    ⟨rfl, rfl⟩ | ⟨rfl, rfl⟩
  all_goals decide

theorem ofNat_toNat_eq {b : UInt8} {c : Char} (small : c.toNat < 128)
    (h : b = UInt8.ofNat c.toNat) : c.toNat = b.toNat := by
  rw [h, UInt8.toNat_ofNat', Nat.mod_eq_of_lt (by omega)]

/-- What stands behind a backslash. -/
theorem takes_escape :
    Takes (escape (bytes cs)) out rest ↔
      (∃ e c cs', cs = e :: cs' ∧ (e, c) ∈ escapes ∧ out = String.utf8EncodeChar c ∧
        rest = bytes cs') ∨
      ∃ cs₁ c cs', cs = 'u' :: cs₁ ∧ Escaped cs₁ c cs' ∧ out = String.utf8EncodeChar c ∧
        rest = bytes cs' := by
  constructor
  · intro h
    cases front : bytes cs with
    | nil =>
      rw [front] at h
      obtain ⟨r, eq, -⟩ := h
      cases eq
    | cons b bs =>
      rw [front] at h
      obtain ⟨r, eq', rfl, rfl⟩ := h
      rw [escape] at eq'
      split at eq'
      next u =>
        right
        obtain ⟨cs₁, rfl, same⟩ := (bytes_front (c := 'u') (by rw [u]; rfl) (by rw [u]; decide)).mp
          front
        subst same
        obtain ⟨u', hu, done⟩ := Option.bind_eq_some_iff.mp eq'
        cases done
        have read : Takes (unicodeEscape (bytes cs₁)) u'.value u'.rest := ⟨u', hu, rfl, rfl⟩
        obtain ⟨c, cs', escaped, enc, left⟩ := takes_unicodeEscape.mp read
        exact ⟨cs₁, c, cs', rfl, escaped, enc, left⟩
      next =>
        left
        obtain ⟨o, found, done⟩ := Option.map_eq_some_iff.mp eq'
        cases done
        obtain ⟨e, c, mem, same, rfl⟩ := simpleEscape_eq_some.mp found
        obtain ⟨smallE, smallC, -⟩ := escapes_ascii mem
        have code := ofNat_toNat_eq smallE same
        obtain ⟨cs', rfl, left⟩ := (bytes_front code (by omega)).mp front
        exact ⟨e, c, cs', rfl, mem, (encode_ascii smallC).symm, left⟩
  · rintro (⟨e, c, cs', rfl, mem, rfl, rfl⟩ | ⟨cs₁, c, cs', rfl, escaped, rfl, rfl⟩)
    · obtain ⟨smallE, smallC, notU⟩ := escapes_ascii mem
      have front := bytes_ascii e cs' smallE
      have found := simpleEscape_eq_some.mpr ⟨e, c, mem, rfl, rfl⟩
      have notu : UInt8.ofNat e.toNat ≠ 0x75 := by
        intro same
        apply notU
        have code := ofNat_toNat_eq smallE same.symm
        exact Char.toNat_inj.mp code
      rw [front]
      refine ⟨⟨[UInt8.ofNat c.toNat], bytes cs', Nat.le_succ _⟩, ?_, ?_, rfl⟩
      · rw [escape, if_neg notu, found]
        rfl
      · exact (encode_ascii smallC).symm
    · obtain ⟨r, eq, value, left⟩ := takes_unicodeEscape.mpr ⟨c, cs', escaped, rfl, rfl⟩
      rw [bytes_ascii 'u' cs₁ (by decide)]
      refine ⟨⟨r.value, r.rest, Nat.le_succ_of_le r.within⟩, ?_, value, left⟩
      show escape (0x75 :: bytes cs₁) = _
      rw [escape, if_pos rfl, eq]
      rfl

theorem takes_stringBody_plain {b : UInt8} (quote : b ≠ 0x22) (slash : b ≠ 0x5c)
    (control : ¬ b ≤ 0x1f) :
    Takes (stringBody (b :: bs)) out rest ↔
      ∃ more, Takes (stringBody bs) more rest ∧ out = b :: more := by
  rw [stringBody, if_neg quote, if_neg slash, if_neg control]
  exact takes_bind (f := fun more => b :: more)

theorem takes_stringBody_escape :
    Takes (stringBody (0x5c :: bs)) out rest ↔
      ∃ front after more, Takes (escape bs) front after ∧ Takes (stringBody after) more rest ∧
        out = front ++ more := by
  rw [stringBody, if_neg (by decide), if_pos rfl]
  constructor
  · rintro ⟨r, eq, rfl, rfl⟩
    obtain ⟨o, ho, eq⟩ := Option.bind_eq_some_iff.mp eq
    obtain ⟨m, hm, eq⟩ := Option.bind_eq_some_iff.mp eq
    cases eq
    exact ⟨o.value, o.rest, m.value, ⟨o, ho, rfl, rfl⟩, ⟨m, hm, rfl, rfl⟩, rfl⟩
  · rintro ⟨_, _, _, ⟨o, ho, rfl, rfl⟩, ⟨m, hm, rfl, rfl⟩, rfl⟩
    refine ⟨⟨o.value ++ m.value, m.rest, ?_⟩, ?_, rfl, rfl⟩
    · exact Nat.le_succ_of_le (Nat.le_trans m.within o.within)
    · simp only [bind, ho, hm, Option.bind_some]

/-- Bytes of characters beyond ASCII stand for themselves. -/
theorem takes_stringBody_high {pre : List UInt8} (high : ∀ b ∈ pre, 128 ≤ b.toNat) :
    Takes (stringBody (pre ++ bs)) out rest ↔
      ∃ more, Takes (stringBody bs) more rest ∧ out = pre ++ more := by
  induction pre generalizing out with
  | nil => simp
  | cons b pre ih =>
    have large := high b List.mem_cons_self
    have quote : b ≠ 0x22 := by rintro rfl; exact absurd large (by decide)
    have slash : b ≠ 0x5c := by rintro rfl; exact absurd large (by decide)
    have control : ¬ b ≤ 0x1f := by
      rw [UInt8.le_iff_toNat_le]
      show ¬ b.toNat ≤ 31
      omega
    rw [List.cons_append, takes_stringBody_plain quote slash control]
    constructor
    · rintro ⟨more, read, rfl⟩
      obtain ⟨last, inner, rfl⟩ := (ih fun d mem => high d (List.mem_cons_of_mem b mem)).mp read
      exact ⟨last, inner, rfl⟩
    · rintro ⟨more, read, rfl⟩
      exact ⟨pre ++ more, (ih fun d mem => high d (List.mem_cons_of_mem b mem)).mpr
        ⟨more, read, rfl⟩, rfl⟩

/-- A character that stands for itself. -/
theorem takes_stringBody_char {c : Char} (plain : Hecks.Json.Grammar.rfc8259.plain c) :
    Takes (stringBody (bytes (c :: cs))) out rest ↔
      ∃ more, Takes (stringBody (bytes cs)) more rest ∧ out = String.utf8EncodeChar c ++ more := by
  obtain ⟨printable, quote, slash⟩ := plain
  by_cases small : c.toNat < 128
  · have code : (UInt8.ofNat c.toNat).toNat = c.toNat := by
      rw [UInt8.toNat_ofNat', Nat.mod_eq_of_lt (by omega)]
    have apart : ∀ d : Char, c ≠ d → d.toNat < 128 → UInt8.ofNat c.toNat ≠ UInt8.ofNat d.toNat := by
      intro d other less same
      have codes := congrArg UInt8.toNat same
      rw [code, UInt8.toNat_ofNat', Nat.mod_eq_of_lt (by omega)] at codes
      exact other (Char.toNat_inj.mp codes)
    rw [bytes_ascii c cs small, encode_ascii small]
    refine takes_stringBody_plain (apart '"' quote (by decide)) (apart '\\' slash (by decide)) ?_
    rw [UInt8.le_iff_toNat_le, code]
    show ¬ c.toNat ≤ 31
    omega
  · rw [bytes_cons]
    exact takes_stringBody_high (encode_high (Nat.le_of_not_lt small))

theorem not_takes_nil : ¬ Takes (stringBody []) out rest := by
  rintro ⟨r, eq, -⟩
  rw [stringBody] at eq
  cases eq

/-- Every string that is read is one of the grammar. -/
theorem chars_of_takes (k : Nat) : ∀ (cs : List Char) (out rest : List UInt8), cs.length ≤ k →
    Takes (stringBody (bytes cs)) out rest →
      ∃ t cs', Chars cs t cs' ∧ out = bytes t ∧ rest = bytes cs' := by
  induction k with
  | zero =>
    intro cs out rest short read
    have none : cs = [] := List.length_eq_zero_iff.mp (by omega)
    subst none
    exact absurd read not_takes_nil
  | succ k ih =>
    intro cs out rest short read
    cases cs with
    | nil => exact absurd read not_takes_nil
    | cons c cs =>
      rw [List.length_cons] at short
      by_cases quote : c = '"'
      · subst quote
        rw [bytes_ascii '"' cs (by decide)] at read
        obtain ⟨r, eq, rfl, rfl⟩ := read
        have same : UInt8.ofNat ('"' : Char).toNat = 0x22 := rfl
        rw [stringBody, if_pos same] at eq
        cases eq
        exact ⟨[], cs, .close, rfl, rfl⟩
      by_cases slash : c = '\\'
      · subst slash
        rw [bytes_ascii '\\' cs (by decide)] at read
        obtain ⟨front, after, more, esc, inner, rfl⟩ := takes_stringBody_escape.mp read
        rcases takes_escape.mp esc with ⟨e, d, cs', rfl, mem, rfl, rfl⟩ |
          ⟨cs₁, d, cs', rfl, escaped, rfl, rfl⟩
        · rw [List.length_cons] at short
          obtain ⟨t, left, chars, rfl, rfl⟩ := ih cs' more rest (by omega) inner
          exact ⟨d :: t, left, .escape mem chars, rfl, rfl⟩
        · have shorter := escaped.length_lt
          rw [List.length_cons] at short
          obtain ⟨t, left, chars, rfl, rfl⟩ := ih cs' more rest (by omega) inner
          refine ⟨d :: t, left, ?_, rfl, rfl⟩
          cases escaped with
          | plain value valid => exact .unicode value valid chars
          | pair high low h1 h2 h3 h4 => exact .pair high low h1 h2 h3 h4 chars
      by_cases printable : 0x20 ≤ c.toNat
      · obtain ⟨more, inner, rfl⟩ := (takes_stringBody_char ⟨printable, quote, slash⟩).mp read
        obtain ⟨t, left, chars, rfl, rfl⟩ := ih cs more rest (by omega) inner
        exact ⟨c :: t, left, .plain ⟨printable, quote, slash⟩ chars, rfl, rfl⟩
      · have control : UInt8.ofNat c.toNat ≤ 0x1f := by
          rw [UInt8.le_iff_toNat_le, UInt8.toNat_ofNat', Nat.mod_eq_of_lt (by omega)]
          show c.toNat ≤ 31
          omega
        have apart : ∀ d : Char, c ≠ d → d.toNat < 128 →
            UInt8.ofNat c.toNat ≠ UInt8.ofNat d.toNat := by
          intro d other less same
          have codes := congrArg UInt8.toNat same
          rw [UInt8.toNat_ofNat', UInt8.toNat_ofNat', Nat.mod_eq_of_lt (by omega),
            Nat.mod_eq_of_lt (by omega)] at codes
          exact other (Char.toNat_inj.mp codes)
        rw [bytes_ascii c cs (by omega)] at read
        obtain ⟨r, eq, -⟩ := read
        have notQuote : UInt8.ofNat c.toNat ≠ 0x22 := apart '"' quote (by decide)
        have notSlash : UInt8.ofNat c.toNat ≠ 0x5c := apart '\\' slash (by decide)
        rw [stringBody, if_neg notQuote, if_neg notSlash, if_pos control] at eq
        cases eq

/-- Every string of the grammar is read. -/
theorem takes_of_chars {cs' : List Char} (h : Chars cs t cs') :
    Takes (stringBody (bytes cs)) (bytes t) (bytes cs') := by
  induction h with
  | @close rest =>
    rw [bytes_ascii '"' rest (by decide)]
    refine ⟨⟨[], bytes rest, Nat.le_succ _⟩, ?_, rfl, rfl⟩
    have same : UInt8.ofNat ('"' : Char).toNat = 0x22 := rfl
    rw [stringBody, if_pos same]
  | plain printable _ ih => exact (takes_stringBody_char printable).mpr ⟨_, ih, rfl⟩
  | @escape e c cs t rest mem _ ih =>
    rw [bytes_ascii '\\' (e :: cs) (by decide)]
    refine takes_stringBody_escape.mpr ⟨_, _, _, takes_escape.mpr (.inl ⟨e, c, cs, rfl, mem, rfl, rfl⟩),
      ih, rfl⟩
  | @unicode a b c d cs t rest code value valid _ ih =>
    rw [bytes_ascii '\\' _ (by decide)]
    exact takes_stringBody_escape.mpr ⟨_, _, _, takes_escape.mpr
      (.inr ⟨_, _, cs, rfl, .plain value valid, rfl, rfl⟩), ih, rfl⟩
  | @pair a b c d a' b' c' d' cs t rest high low value value' h1 h2 h3 h4 _ ih =>
    rw [bytes_ascii '\\' _ (by decide)]
    have esc := takes_escape.mpr (.inr ⟨_, _, cs, rfl, .pair value value' h1 h2 h3 h4, rfl, rfl⟩)
    exact takes_stringBody_escape.mpr ⟨_, _, _, esc, ih, rfl⟩

/-- A string with its quotes. -/
theorem takes_string {s : String} :
    Takes (string (bytes cs)) s rest ↔
      ∃ body t cs', cs = '"' :: body ∧ Chars body t cs' ∧ s = String.ofList t ∧ rest = bytes cs' := by
  constructor
  · rintro ⟨r, eq, rfl, rfl⟩
    obtain ⟨quote, hq, eq⟩ := Option.bind_eq_some_iff.mp eq
    obtain ⟨body, hb, eq⟩ := Option.bind_eq_some_iff.mp eq
    obtain ⟨text, ht, eq⟩ := Option.bind_eq_some_iff.mp eq
    cases eq
    obtain ⟨cs₁, rfl, left⟩ := (bytes_front (c := '"') rfl (by decide)).mp (expect_eq_some.mp hq)
    have read : Takes (stringBody (bytes cs₁)) body.value body.rest := by
      rw [← left]
      exact ⟨body, hb, rfl, rfl⟩
    obtain ⟨t, cs', chars, out, left'⟩ := chars_of_takes _ cs₁ _ _ (Nat.le_refl _) read
    have same : text = t := by
      rw [out, fromUtf8_eq_some.mpr rfl] at ht
      exact (Option.some.inj ht).symm
    exact ⟨cs₁, t, cs', rfl, chars, by rw [same], left'⟩
  · rintro ⟨body, t, cs', rfl, chars, rfl, rfl⟩
    obtain ⟨quote, hq, left⟩ :=
      expect_of_eq ((bytes_front (b := 0x22) (c := '"') rfl (by decide)).mpr ⟨body, rfl, rfl⟩)
    have read := takes_of_chars chars
    rw [← left] at read
    obtain ⟨r, hr, value, last⟩ := read
    have text : fromUtf8 r.value = some t := fromUtf8_eq_some.mpr value
    refine ⟨⟨String.ofList t, r.rest, ?_⟩, ?_, rfl, last⟩
    · exact Nat.le_trans r.within (Nat.le_of_lt quote.2)
    · simp only [string, bind, hq, Option.bind_some, hr, text]

/-! ### Spaces and numbers -/

section

variable {p : UInt8 → Bool} {q : Char → Bool}

theorem takeIf_cases (m : Mirrors p q) (cs : List Char) :
    (∃ c cs', cs = c :: cs' ∧ q c = true ∧ takeIf p (bytes cs) = (true, bytes cs')) ∨
      ((∀ c, cs.head? = some c → q c = false) ∧ takeIf p (bytes cs) = (false, bytes cs)) := by
  cases cs with
  | nil => exact .inr ⟨by simp, rfl⟩
  | cons c cs =>
    by_cases hit : q c = true
    · left
      have small : c.toNat < 128 := by
        by_contra large
        rw [m.char c (by omega)] at hit
        cases hit
      refine ⟨c, cs, rfl, hit, ?_⟩
      rw [bytes_ascii c cs small, takeIf, ← m.ascii c small, if_pos hit]
    · right
      refine ⟨by simpa using hit, ?_⟩
      cases front : bytes (c :: cs) with
      | nil => rfl
      | cons b bs =>
        have miss : p b = false := by
          by_cases small : c.toNat < 128
          · rw [bytes_ascii c cs small] at front
            rw [← (List.cons.inj front).1, ← m.ascii c small]
            simpa using hit
          · apply m.byte
            have high := encode_high (Nat.le_of_not_lt small)
            cases enc : String.utf8EncodeChar c with
            | nil => exact absurd enc (encode_ne_nil c)
            | cons d ds =>
              rw [bytes_cons, enc, List.cons_append] at front
              rw [← (List.cons.inj front).1]
              exact high d (by rw [enc]; exact List.mem_cons_self)
        rw [takeIf, miss]
        rfl

theorem takeIf_stop (m : Mirrors p q) (stop : ∀ c, cs.head? = some c → q c = false) :
    takeIf p (bytes cs) = (false, bytes cs) := by
  rcases takeIf_cases m cs with ⟨c, cs', rfl, hit, -⟩ | ⟨-, miss⟩
  · rw [stop c rfl] at hit
    cases hit
  · exact miss

theorem takeIf_hit (m : Mirrors p q) (cs : List Char) {c : Char} (hit : q c = true) :
    takeIf p (bytes (c :: cs)) = (true, bytes cs) := by
  rcases takeIf_cases m (c :: cs) with ⟨d, cs', same, -, took⟩ | ⟨miss, -⟩
  · cases same
    exact took
  · rw [miss c rfl] at hit
    cases hit

end

/-- One character, by its code. -/
theorem mirrors_char (d : Char) (small : d.toNat < 128) :
    Mirrors (fun b => decide (b = UInt8.ofNat d.toNat)) (fun c => decide (c = d)) := by
  have code : (UInt8.ofNat d.toNat).toNat = d.toNat := by
    rw [UInt8.toNat_ofNat', Nat.mod_eq_of_lt (by omega)]
  refine mirrors_of (r := fun k => decide (k = d.toNat)) ?_ ?_ ?_
  · intro b
    rw [decide_eq_decide, ← UInt8.toNat_inj, code]
  · intro c
    rw [decide_eq_decide, Char.toNat_inj]
  · intro k large
    simp only [decide_eq_false_iff_not]
    omega

/-- One of two characters. -/
theorem mirrors_two (d e : Char) (smallD : d.toNat < 128) (smallE : e.toNat < 128) :
    Mirrors (fun b => decide (b = UInt8.ofNat d.toNat) || decide (b = UInt8.ofNat e.toNat))
      (fun c => decide (c = d) || decide (c = e)) where
  ascii c small := by rw [(mirrors_char d smallD).ascii c small, (mirrors_char e smallE).ascii c small]
  byte b large := by
    rw [(mirrors_char d smallD).byte b large, (mirrors_char e smallE).byte b large]
    rfl
  char c large := by
    rw [(mirrors_char d smallD).char c large, (mirrors_char e smallE).char c large]
    rfl

theorem mirrors_digit : Mirrors isDigit Hecks.Json.Parser.isDigit := by
  refine mirrors_of (r := fun k => decide (48 ≤ k) && decide (k ≤ 57)) ?_ ?_ ?_
  · intro b
    simp only [isDigit, UInt8.le_iff_toNat_le]
    rfl
  · intro c
    simp only [Hecks.Json.Grammar.isDigit_eq, Char.isDigit, UInt32.le_iff_toNat_le, ge_iff_le]
    rfl
  · intro k large
    have : ¬ k ≤ 57 := by omega
    simp [this]

/-- A JSON space. -/
def isSpace (c : Char) : Bool := c = ' ' || c = '\t' || c = '\n' || c = '\r'

theorem mirrors_space : Mirrors isWhitespace isSpace := by
  refine mirrors_of (r := fun k => k = 0x20 || k = 0x09 || k = 0x0a || k = 0x0d) ?_ ?_ ?_
  · intro b
    have code : ∀ d : UInt8, decide (b = d) = decide (b.toNat = d.toNat) := fun d => by
      rw [decide_eq_decide, UInt8.toNat_inj]
    rw [isWhitespace, code, code, code, code]
    rfl
  · intro c
    have code : ∀ d : Char, decide (c = d) = decide (c.toNat = d.toNat) := fun d => by
      rw [decide_eq_decide, Char.toNat_inj]
    rw [isSpace, code, code, code, code]
    rfl
  · intro k large
    simp only [Bool.or_eq_false_iff, decide_eq_false_iff_not]
    omega

theorem space_iff {c : Char} : rfc8259.space c ↔ isSpace c = true := by
  simp [rfc8259, isSpace, or_assoc]

theorem skipWhitespace_bytes (cs : List Char) :
    skipWhitespace (bytes cs) = bytes (cs.dropWhile isSpace) := mirrors_space.dropWhile cs

theorem spaces_dropWhile (cs : List Char) : Spaces rfc8259 cs (cs.dropWhile isSpace) := by
  refine ⟨cs.takeWhile isSpace, ?_, List.takeWhile_append_dropWhile.symm⟩
  intro c mem
  exact space_iff.mpr (List.mem_takeWhile_imp mem)

/-- Spaces up to something that is none are what the reader skips. -/
theorem dropWhile_of_spaces {more : List Char} (spaces : Spaces rfc8259 cs more)
    (stop : ∀ c, more.head? = some c → isSpace c = false) : cs.dropWhile isSpace = more := by
  obtain ⟨ws, all, rfl⟩ := spaces
  induction ws with
  | nil =>
    cases more with
    | nil => rfl
    | cons c more => rw [List.nil_append, List.dropWhile_cons, stop c rfl]; rfl
  | cons w ws ih =>
    have space := space_iff.mp (all w List.mem_cons_self)
    rw [List.cons_append, List.dropWhile_cons, space, if_pos rfl]
    exact ih fun c mem => all c (List.mem_cons_of_mem w mem)

theorem digits_some {ds : List UInt8} (h : digits (bytes cs) = some (ds, rest)) :
    ∃ w cs', cs = w ++ cs' ∧ w ≠ [] ∧ (∀ c ∈ w, Hecks.Json.Parser.isDigit c) ∧ ds = bytes w ∧
      rest = bytes cs' := by
  unfold digits at h
  simp only [mirrors_digit.takeWhile, mirrors_digit.dropWhile, bytes_eq_nil] at h
  split at h
  next => cases h
  next some =>
    cases h
    exact ⟨_, _, List.takeWhile_append_dropWhile.symm, some,
      fun c mem => List.mem_takeWhile_imp mem, rfl, rfl⟩

theorem digits_of_stop {w cs' : List Char} (some : w ≠ [])
    (all : ∀ c ∈ w, Hecks.Json.Parser.isDigit c)
    (stop : ∀ c, cs'.head? = Option.some c → Hecks.Json.Parser.isDigit c = false) :
    digits (bytes (w ++ cs')) = Option.some (bytes w, bytes cs') := by
  have split := Hecks.Json.Grammar.takeDigits_of_stop all stop
  have take : (w ++ cs').takeWhile Hecks.Json.Parser.isDigit = w := congrArg Prod.fst split
  have drop : (w ++ cs').dropWhile Hecks.Json.Parser.isDigit = cs' := congrArg Prod.snd split
  unfold digits
  simp only [mirrors_digit.takeWhile, mirrors_digit.dropWhile, bytes_eq_nil, take, drop]
  rw [if_neg some]

/-- The digits of a number come to the same in bytes and in characters. -/
theorem digitsValue_bytes {w : List Char} (all : ∀ c ∈ w, Hecks.Json.Parser.isDigit c) :
    digitsValue (bytes w) = w.foldl (fun k c => k * 10 + (c.toNat - '0'.toNat)) 0 := by
  have step : ∀ (w : List Char), (∀ c ∈ w, Hecks.Json.Parser.isDigit c) → ∀ k : Nat,
      (bytes w).foldl (fun n d => n * 10 + (d.toNat - 0x30)) k =
        w.foldl (fun k c => k * 10 + (c.toNat - '0'.toNat)) k := by
    intro w
    induction w with
    | nil => exact fun _ _ => rfl
    | cons c w ih =>
      intro all k
      have digit := all c List.mem_cons_self
      have small : c.toNat < 128 := by
        by_contra large
        rw [mirrors_digit.char c (by omega)] at digit
        cases digit
      rw [bytes_ascii c w small, List.foldl_cons, List.foldl_cons,
        ih (fun d mem => all d (List.mem_cons_of_mem c mem)), UInt8.toNat_ofNat',
        Nat.mod_eq_of_lt (by omega)]
      rfl
  exact step w all 0

/-- An integer literal's digits, read with saturation. -/
theorem integerFrom_eq (ds : List UInt8) (negative : Bool) :
    integerFrom ds negative = max (-2 ^ 127)
      (min (if negative then -(digitsValue ds : Int) else digitsValue ds) (2 ^ 127 - 1)) := by
  unfold integerFrom
  generalize digitsValue ds = k
  cases negative with
  | true =>
    simp only [if_true]
    split <;> omega
  | false =>
    simp only [Bool.false_eq_true, if_false]
    split <;> omega

theorem mirrors_dash : Mirrors (fun b => decide (b = 0x2d)) (fun c => decide (c = '-')) :=
  mirrors_char '-' (by decide)

theorem mirrors_zero : Mirrors (fun b => decide (b = 0x30)) (fun c => decide (c = '0')) :=
  mirrors_char '0' (by decide)

theorem mirrors_point : Mirrors (fun b => decide (b = 0x2e)) (fun c => decide (c = '.')) :=
  mirrors_char '.' (by decide)

theorem mirrors_mark : Mirrors (fun b => decide (b = 0x65) || decide (b = 0x45))
    (fun c => decide (c = 'e') || decide (c = 'E')) := mirrors_two 'e' 'E' (by decide) (by decide)

theorem mirrors_sign : Mirrors (fun b => decide (b = 0x2b) || decide (b = 0x2d))
    (fun c => decide (c = '+') || decide (c = '-')) := mirrors_two '+' '-' (by decide) (by decide)

/-- The whole part of a number: a zero alone, or digits that start with none. -/
structure Whole (w : List Char) : Prop where
  some : w ≠ []
  digits : ∀ c ∈ w, Hecks.Json.Parser.isDigit c
  noLeadingZero : w.head? = Option.some '0' → w = ['0']

theorem wholePart_some {ds : List UInt8} (h : wholePart (bytes cs) = some (ds, rest)) :
    ∃ w cs', cs = w ++ cs' ∧ Whole w ∧ ds = bytes w ∧ rest = bytes cs' := by
  unfold wholePart at h
  rcases takeIf_cases mirrors_zero cs with ⟨c, cs', rfl, zero, took⟩ | ⟨miss, took⟩
  · simp only [took, if_true] at h
    cases h
    have same : c = '0' := by simpa using zero
    subst same
    exact ⟨['0'], cs', rfl, ⟨by simp, by simp [Hecks.Json.Parser.isDigit, Text.digit?], by simp⟩,
      rfl, rfl⟩
  · simp only [took, Bool.false_eq_true, if_false] at h
    obtain ⟨w, cs', rfl, some, all, dsEq, left⟩ := digits_some h
    refine ⟨w, cs', rfl, ⟨some, all, ?_⟩, dsEq, left⟩
    intro zero
    obtain ⟨c, w', rfl⟩ := List.exists_cons_of_ne_nil some
    have no := miss c rfl
    cases zero
    simp at no

theorem wholePart_of {w : List Char} (whole : Whole w) (cs' : List Char)
    (stop : ∀ c, cs'.head? = some c → Hecks.Json.Parser.isDigit c = false) :
    wholePart (bytes (w ++ cs')) = some (bytes w, bytes cs') := by
  unfold wholePart
  by_cases zero : w.head? = some '0'
  · rw [whole.noLeadingZero zero]
    have took := takeIf_hit mirrors_zero cs' (c := '0') (by simp)
    simp only [List.cons_append, List.nil_append, took, if_true]
    rfl
  · have miss : takeIf (fun b => decide (b = 0x30)) (bytes (w ++ cs')) = (false, bytes (w ++ cs')) := by
      apply takeIf_stop mirrors_zero
      intro c head
      obtain ⟨d, w', rfl⟩ := List.exists_cons_of_ne_nil whole.some
      rw [List.cons_append, List.head?_cons, Option.some.injEq] at head
      subst head
      simpa using zero
    simp only [miss, Bool.false_eq_true, if_false]
    exact digits_of_stop whole.some whole.digits stop

/-- A fraction, if there is one. -/
theorem fractionPart_some {f : Bool} (h : fractionPart (bytes cs) = some (f, rest)) :
    ∃ (fraction : Option (List Char)) (cs' : List Char),
      cs = (fraction.elim [] fun ds => '.' :: ds) ++ cs' ∧
      (∀ ds ∈ fraction, ds ≠ [] ∧ ∀ c ∈ ds, Hecks.Json.Parser.isDigit c) ∧ f = fraction.isSome ∧
      rest = bytes cs' := by
  unfold fractionPart at h
  rcases takeIf_cases mirrors_point cs with ⟨c, cs', rfl, point, took⟩ | ⟨miss, took⟩
  · simp only [took, if_true] at h
    obtain ⟨⟨ds, left⟩, found, same⟩ := Option.map_eq_some_iff.mp h
    cases same
    obtain ⟨w, cs₁, rfl, some, all, -, left⟩ := digits_some found
    have same : c = '.' := by simpa using point
    subst same
    refine ⟨Option.some w, cs₁, rfl, ?_, rfl, left⟩
    rintro _ ⟨⟩
    exact ⟨some, all⟩
  · simp only [took, Bool.false_eq_true, if_false] at h
    cases h
    exact ⟨none, cs, rfl, by simp, rfl, rfl⟩

/-- An exponent, if there is one. -/
theorem exponentPart_some {e : Bool} (h : exponentPart (bytes cs) = some (e, rest)) :
    ∃ (exponent : Option (List Char × List Char)) (cs' : List Char),
      cs = (exponent.elim [] fun x => x.1 ++ x.2) ++ cs' ∧
      (∀ x ∈ exponent, x.1 ∈ Numeral.marks ∧ x.2 ≠ [] ∧
        ∀ c ∈ x.2, Hecks.Json.Parser.isDigit c) ∧ e = exponent.isSome ∧ rest = bytes cs' := by
  unfold exponentPart at h
  rcases takeIf_cases mirrors_mark cs with ⟨c, cs', rfl, mark, took⟩ | ⟨miss, took⟩
  · simp only [took, if_true] at h
    obtain ⟨⟨ds, left⟩, found, same⟩ := Option.map_eq_some_iff.mp h
    cases same
    have letter : c = 'e' ∨ c = 'E' := by simpa using mark
    rcases takeIf_cases mirrors_sign cs' with ⟨s, cs₁, rfl, sign, took'⟩ | ⟨-, took'⟩
    · rw [took'] at found
      obtain ⟨w, cs₂, rfl, some, all, -, left⟩ := digits_some found
      have plus : s = '+' ∨ s = '-' := by simpa using sign
      refine ⟨Option.some ([c, s], w), cs₂, rfl, ?_, rfl, left⟩
      rintro _ ⟨⟩
      refine ⟨?_, some, all⟩
      rcases letter with rfl | rfl <;> rcases plus with rfl | rfl <;> simp [Numeral.marks]
    · rw [took'] at found
      obtain ⟨w, cs₂, rfl, some, all, -, left⟩ := digits_some found
      refine ⟨Option.some ([c], w), cs₂, rfl, ?_, rfl, left⟩
      rintro _ ⟨⟩
      refine ⟨?_, some, all⟩
      rcases letter with rfl | rfl <;> simp [Numeral.marks]
  · simp only [took, Bool.false_eq_true, if_false] at h
    cases h
    exact ⟨none, cs, rfl, by simp, rfl, rfl⟩

/-- Every number that is read is one of RFC 8259, and stands for what it spells. -/
theorem number_some {v : Json} (h : number (bytes cs) = some (v, rest)) :
    ∃ (n : Numeral) (cs' : List Char), n.Strict ∧ cs = n.text ++ cs' ∧ v = numeral n ∧
      rest = bytes cs' := by
  unfold number at h
  dsimp only [Option.bind_eq_bind] at h
  obtain ⟨⟨w, afterWhole⟩, hw, h⟩ := Option.bind_eq_some_iff.mp h
  obtain ⟨⟨f, afterFraction⟩, hf, h⟩ := Option.bind_eq_some_iff.mp h
  obtain ⟨⟨e, afterExponent⟩, he, h⟩ := Option.bind_eq_some_iff.mp h
  dsimp only at hf he h
  obtain ⟨minus, cs₀, front, took⟩ : ∃ (minus : Bool) (cs₀ : List Char),
      cs = (if minus then ['-'] else []) ++ cs₀ ∧
        takeIf (fun b => decide (b = 0x2d)) (bytes cs) = (minus, bytes cs₀) := by
    rcases takeIf_cases mirrors_dash cs with ⟨c, cs', rfl, dash, took⟩ | ⟨-, took⟩
    · have same : c = '-' := by simpa using dash
      subst same
      exact ⟨true, cs', rfl, took⟩
    · exact ⟨false, cs, rfl, took⟩
  rw [took] at hw h
  obtain ⟨whole, cs₁, rfl, isWhole, rfl, rfl⟩ := wholePart_some hw
  obtain ⟨fraction, cs₂, rfl, fractions, rfl, rfl⟩ := fractionPart_some hf
  obtain ⟨exponent, cs₃, rfl, exponents, rfl, rfl⟩ := exponentPart_some he
  let n : Numeral := ⟨minus, whole, fraction, exponent⟩
  have strict : n.Strict := by
    refine ⟨⟨isWhole.digits, fun ds mem => (fractions ds mem).2, fun x mem => ?_⟩, isWhole.some,
      isWhole.noLeadingZero, fun ds mem => (fractions ds mem).1, fun x mem => (exponents x mem).2.1⟩
    exact ⟨(exponents x mem).1, (exponents x mem).2.2⟩
  have text : n.text = (if minus then ['-'] else []) ++ whole ++
      (fraction.elim [] fun ds => '.' :: ds) ++ (exponent.elim [] fun x => x.1 ++ x.2) := by
    unfold Numeral.text Numeral.fractionText Numeral.exponentText
    cases fraction <;> cases exponent <;> rfl
  refine ⟨n, cs₃, strict, ?_, ?_, ?_⟩
  · rw [front, text]
    simp only [List.append_assoc]
  · unfold numeral
    cases fraction with
    | some ds =>
      simp only [Option.isSome_some, Bool.true_or, if_true] at h
      cases h
      simp [n]
    | none =>
      cases exponent with
      | some x =>
        simp only [Option.isSome_some, Bool.or_true, if_true] at h
        cases h
        simp [n]
      | none =>
        simp only [Option.isSome_none, Bool.or_self, Bool.false_eq_true, if_false] at h
        cases h
        rw [integerFrom_eq, digitsValue_bytes isWhole.digits]
        rfl
  · cases fraction <;> cases exponent <;> simp at h <;> exact h.2.symm

theorem fractionPart_of {n : Numeral} {cs' : List Char} (strict : n.Strict) (stops : n.Stops cs') :
    fractionPart (bytes (n.fractionText ++ (n.exponentText ++ cs'))) =
      some (n.fraction.isSome, bytes (n.exponentText ++ cs')) := by
  unfold fractionPart Numeral.fractionText
  cases eq : n.fraction with
  | none =>
    have miss : takeIf (fun b => decide (b = 0x2e)) (bytes (n.exponentText ++ cs')) =
        (false, bytes (n.exponentText ++ cs')) := by
      apply takeIf_stop mirrors_point
      intro c head
      simpa using (Hecks.Json.Grammar.head_exponentText strict.toWellFormed stops head).2 eq
    simp only [List.nil_append, miss, Bool.false_eq_true, if_false]
    rfl
  | some ds =>
    have took := takeIf_hit mirrors_point (ds ++ (n.exponentText ++ cs')) (c := '.') (by simp)
    have behind := digits_of_stop (strict.someFraction ds eq) (strict.fraction ds eq)
      fun c head => (Hecks.Json.Grammar.head_exponentText strict.toWellFormed stops head).1
    simp only [List.cons_append, took, if_true, behind]
    rfl

theorem exponentPart_of {n : Numeral} {cs' : List Char} (strict : n.Strict)
    (stops : n.Stops cs') :
    exponentPart (bytes (n.exponentText ++ cs')) = some (n.exponent.isSome, bytes cs') := by
  unfold exponentPart Numeral.exponentText
  cases eq : n.exponent with
  | none =>
    have miss : takeIf (fun b => decide (b = 0x65) || decide (b = 0x45)) (bytes cs') =
        (false, bytes cs') := by
      apply takeIf_stop mirrors_mark
      intro c head
      obtain ⟨e, E, -⟩ := (stops c head).2 eq
      simp [e, E]
    simp only [List.nil_append, miss, Bool.false_eq_true, if_false]
    rfl
  | some x =>
    obtain ⟨mark, ds⟩ := x
    obtain ⟨hm, all⟩ := strict.exponent (mark, ds) eq
    have some : ds ≠ [] := strict.someExponent (mark, ds) eq
    obtain ⟨m, sign, rfl, letter, signs⟩ := Hecks.Json.Grammar.mark_cases hm
    have took := takeIf_hit mirrors_mark (sign ++ ds ++ cs') (c := m) (by simpa using letter)
    have behind := digits_of_stop some all fun c head => (stops c head).1
    have signed : (takeIf (fun b => decide (b = 0x2b) || decide (b = 0x2d))
        (bytes (sign ++ ds ++ cs'))).2 = bytes (ds ++ cs') := by
      rcases signs with rfl | ⟨s, rfl, plus⟩
      · have miss : takeIf (fun b => decide (b = 0x2b) || decide (b = 0x2d)) (bytes (ds ++ cs')) =
            (false, bytes (ds ++ cs')) := by
          apply takeIf_stop mirrors_sign
          intro c head
          obtain ⟨d, ds', rfl⟩ := List.exists_cons_of_ne_nil some
          rw [List.cons_append, List.head?_cons, Option.some.injEq] at head
          subst head
          have digit := all d List.mem_cons_self
          have plus : d ≠ '+' := by
            rintro rfl
            simp [Hecks.Json.Parser.isDigit, Text.digit?] at digit
          have minus : d ≠ '-' := by
            rintro rfl
            simp [Hecks.Json.Parser.isDigit, Text.digit?] at digit
          simp [plus, minus]
        rw [List.nil_append, miss]
      · have hit := takeIf_hit mirrors_sign (ds ++ cs') (c := s) (by simpa using plus)
        rw [List.append_assoc, List.cons_append, List.nil_append, hit]
    simp only [List.cons_append, took, if_true, signed, behind]
    rfl

/-- Every number of RFC 8259 that no number goes on from is read. -/
theorem number_of {n : Numeral} {cs' : List Char} (strict : n.Strict) (follows : Hecks.Json.Grammar.Follows cs') :
    number (bytes (n.text ++ cs')) = some (numeral n, bytes cs') := by
  have stops : n.Stops cs' := follows.stops
  have whole : Whole n.whole := ⟨strict.someWhole, strict.whole, strict.noLeadingZero⟩
  have wholeRead := wholePart_of whole (n.fractionText ++ (n.exponentText ++ cs'))
    fun c head => Hecks.Json.Grammar.head_fractionText strict.toWellFormed stops head
  have sign : takeIf (fun b => decide (b = 0x2d)) (bytes (n.text ++ cs')) =
      (n.minus, bytes (n.whole ++ (n.fractionText ++ (n.exponentText ++ cs')))) := by
    unfold Numeral.text
    cases n.minus with
    | true =>
      simp only [if_true, List.append_assoc, List.cons_append, List.nil_append]
      exact takeIf_hit mirrors_dash _ (by simp)
    | false =>
      simp only [Bool.false_eq_true, if_false, List.append_assoc, List.nil_append]
      apply takeIf_stop mirrors_dash
      intro c head
      obtain ⟨d, ds, eq⟩ := List.exists_cons_of_ne_nil strict.someWhole
      rw [eq, List.cons_append, List.head?_cons, Option.some.injEq] at head
      subst head
      have digit := strict.whole d (by simp [eq])
      have dash : d ≠ '-' := by
        rintro rfl
        simp [Hecks.Json.Parser.isDigit, Text.digit?] at digit
      simpa using dash
  unfold number
  simp only [sign, bind, Option.bind_some, wholeRead, fractionPart_of strict stops,
    exponentPart_of strict stops]
  unfold numeral
  cases fraction : n.fraction with
  | some ds => simp
  | none =>
    cases exponent : n.exponent with
    | some x => simp
    | none =>
      simp only [Option.isSome_none, Bool.or_self, Bool.false_eq_true, if_false, and_self, if_true]
      rw [integerFrom_eq, digitsValue_bytes strict.whole]
      rfl

end Hecks.Signin.StrictJson
