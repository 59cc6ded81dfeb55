import Mathlib
import Hecks.Lib.Slices

/-! Scanning the bytes of a text. A scan that stops only at ASCII acts on the bytes as it does on
the characters, because no byte of another character is ASCII. -/
namespace Slices

variable {cs : List Char} {c : Char} {b : UInt8}

theorem bytes_nil : bytes [] = [] := rfl

theorem bytes_cons (c : Char) (cs : List Char) :
    bytes (c :: cs) = String.utf8EncodeChar c ++ bytes cs := rfl

/-- An ASCII character is one byte. -/
theorem encode_ascii (ascii : c.toNat < 128) :
    String.utf8EncodeChar c = [UInt8.ofNat c.toNat] := by
  have one : c.utf8Size = 1 := by
    rw [Char.utf8Size_eq_one_iff, UInt32.le_iff_toNat_le]
    exact Nat.le_of_lt_succ ascii
  rw [String.utf8EncodeChar_eq_singleton one]
  have same : UInt32.toUInt8 c.val = UInt8.ofNat c.toNat := by
    apply UInt8.toNat_inj.mp
    rw [UInt32.toNat_toUInt8, UInt8.toNat_ofNat']
    rfl
  rw [same]

theorem size_ascii (ascii : ∀ c ∈ cs, c.toNat < 128) : size cs = cs.length := by
  induction cs with
  | nil => rfl
  | cons c cs ih =>
    rw [size_cons, ih fun d mem => ascii d (List.mem_cons_of_mem c mem), List.length_cons,
      ← String.length_utf8EncodeChar, encode_ascii (ascii c List.mem_cons_self)]
    simp only [List.length_singleton]
    omega

theorem encode_high (high : 128 ≤ c.toNat) : ∀ b ∈ String.utf8EncodeChar c, 128 ≤ b.toNat := by
  intro b mem
  rcases mem_utf8EncodeChar mem with ⟨-, same⟩ | other
  · omega
  · exact other

theorem encode_ne_nil (c : Char) : String.utf8EncodeChar c ≠ [] := by
  intro none
  have size := String.length_utf8EncodeChar c
  rw [none, List.length_nil] at size
  exact absurd size (Nat.ne_of_lt (utf8Size_pos c))

theorem bytes_injective : Function.Injective bytes := by
  intro cs ds h
  have encode : ∀ cs : List Char, (bytes cs).toByteArray = cs.utf8Encode := fun _ => rfl
  have same : cs.utf8Encode = ds.utf8Encode := by rw [← encode, ← encode, h]
  have decoded := congrArg ByteArray.utf8Decode? same
  rw [List.utf8Decode?_utf8Encode, List.utf8Decode?_utf8Encode] at decoded
  simpa using decoded

theorem bytes_eq_nil : bytes cs = [] ↔ cs = [] := by
  cases cs with
  | nil => simp [bytes_nil]
  | cons c cs => simp [bytes_cons]

/-- An ASCII byte at the front is the first character. -/
theorem bytes_eq_cons {bs : List UInt8} (h : bytes cs = b :: bs) (ascii : b.toNat < 128) :
    ∃ c cs', cs = c :: cs' ∧ c.toNat = b.toNat ∧ bs = bytes cs' := by
  cases cs with
  | nil => cases h
  | cons c cs =>
    rw [bytes_cons] at h
    by_cases small : c.toNat < 128
    · rw [encode_ascii small, List.singleton_append] at h
      obtain ⟨rfl, rfl⟩ := List.cons.inj h
      refine ⟨c, cs, rfl, ?_, rfl⟩
      rw [UInt8.toNat_ofNat']
      exact (Nat.mod_eq_of_lt (by omega)).symm
    · have high := encode_high (Nat.le_of_not_lt small)
      cases enc : String.utf8EncodeChar c with
      | nil => exact absurd enc (encode_ne_nil c)
      | cons d ds =>
        rw [enc, List.cons_append] at h
        have first := high d (by rw [enc]; exact List.mem_cons_self)
        rw [(List.cons.inj h).1] at first
        omega

/-- The test of a byte and the test of a character come to the same, and hold of ASCII only. -/
structure Mirrors (p : UInt8 → Bool) (q : Char → Bool) : Prop where
  ascii : ∀ c : Char, c.toNat < 128 → q c = p (UInt8.ofNat c.toNat)
  byte : ∀ b : UInt8, 128 ≤ b.toNat → p b = false
  char : ∀ c : Char, 128 ≤ c.toNat → q c = false

/-- Two tests that ask for the same code points below 128. -/
theorem mirrors_of {p : UInt8 → Bool} {q : Char → Bool} {r : Nat → Bool}
    (byte : ∀ b : UInt8, p b = r b.toNat) (char : ∀ c : Char, q c = r c.toNat)
    (high : ∀ n, 128 ≤ n → r n = false) : Mirrors p q where
  ascii c small := by
    rw [char, byte, UInt8.toNat_ofNat', Nat.mod_eq_of_lt (by omega)]
  byte b large := by rw [byte, high _ large]
  char c large := by rw [char, high _ large]

namespace Mirrors

variable {p : UInt8 → Bool} {q : Char → Bool} (m : Mirrors p q)

include m

theorem high_dropWhile {bs : List UInt8} (c : Char) (high : 128 ≤ c.toNat) :
    (String.utf8EncodeChar c ++ bs).dropWhile p = String.utf8EncodeChar c ++ bs ∧
      (String.utf8EncodeChar c ++ bs).takeWhile p = [] := by
  cases enc : String.utf8EncodeChar c with
  | nil => exact absurd enc (encode_ne_nil c)
  | cons d ds =>
    have first := m.byte d (encode_high high d (by rw [enc]; exact List.mem_cons_self))
    simp [first]

theorem dropWhile (cs : List Char) : (bytes cs).dropWhile p = bytes (cs.dropWhile q) := by
  induction cs with
  | nil => rfl
  | cons c cs ih =>
    rw [bytes_cons]
    by_cases small : c.toNat < 128
    · rw [encode_ascii small, List.singleton_append, List.dropWhile_cons, List.dropWhile_cons,
        m.ascii c small, ih]
      split
      · rfl
      · rw [bytes_cons, encode_ascii small, List.singleton_append]
    · have high := Nat.le_of_not_lt small
      rw [(m.high_dropWhile c high).1, List.dropWhile_cons, m.char c high]
      rfl

theorem takeWhile (cs : List Char) : (bytes cs).takeWhile p = bytes (cs.takeWhile q) := by
  induction cs with
  | nil => rfl
  | cons c cs ih =>
    rw [bytes_cons]
    by_cases small : c.toNat < 128
    · rw [encode_ascii small, List.singleton_append, List.takeWhile_cons, List.takeWhile_cons,
        m.ascii c small, ih]
      split
      · rw [bytes_cons, encode_ascii small, List.singleton_append]
      · rfl
    · have high := Nat.le_of_not_lt small
      rw [(m.high_dropWhile c high).2, List.takeWhile_cons, m.char c high]
      rfl

end Mirrors

end Slices
