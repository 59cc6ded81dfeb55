import Mathlib
import Hecks.Lib.Panics

/-! Texts sliced at byte offsets. A slice panics unless both of its ends lie between two
characters; next to a byte of one-byte characters they do. -/
namespace Slices

open Panics

def bytes (cs : List Char) : List UInt8 := cs.flatMap String.utf8EncodeChar

/-- `len`. -/
def size (cs : List Char) : Nat := (bytes cs).length

/-- The text up to a byte offset and from it, if the offset lies between two characters. -/
def cut : List Char → Nat → Option (List Char × List Char)
  | cs, 0 => some ([], cs)
  | [], _ + 1 => none
  | c :: cs, i + 1 =>
      if c.utf8Size ≤ i + 1 then
        (cut cs (i + 1 - c.utf8Size)).map fun (before, behind) => (c :: before, behind)
      else none

section

variable {ε : Type}

/-- `&text[..i]`. -/
def upTo (cs : List Char) (i : Nat) : Run ε (List Char) :=
  match cut cs i with
  | some (before, _) => pure before
  | none => abort "byte index is not a char boundary"

/-- `&text[i..]`. -/
def onFrom (cs : List Char) (i : Nat) : Run ε (List Char) :=
  match cut cs i with
  | some (_, behind) => pure behind
  | none => abort "byte index is not a char boundary"

/-- `&text[i..j]`. -/
def between (cs : List Char) (i j : Nat) : Run ε (List Char) :=
  if i ≤ j then do
    let behind ← onFrom cs i
    upTo behind (j - i)
  else abort "begin is past end"

end

/-- `find`: the offset of the first occurrence. -/
def find (sub : List Char) : List Char → Option Nat
  | [] => if sub = [] then some 0 else none
  | c :: cs => if sub <+: c :: cs then some 0 else (find sub cs).map (c.utf8Size + ·)

/-- The offsets of all occurrences, in order. -/
def occurrences (sub : List Char) : List Char → List Nat
  | [] => if sub = [] then [0] else []
  | c :: cs =>
      (if sub <+: c :: cs then [0] else []) ++ (occurrences sub cs).map (c.utf8Size + ·)

/-- `rfind`: the offset of the last occurrence. -/
def rfind (sub cs : List Char) : Option Nat := (occurrences sub cs).getLast?

/-- `strip_suffix`. -/
def stripSuffix (suffix cs : List Char) : Option (List Char) :=
  if suffix <:+ cs then some (cs.take (cs.length - suffix.length)) else none

/-! ### Bytes and characters -/

variable {cs pre post mid sub : List Char} {c : Char} {i j : Nat}

theorem bytes_append : bytes (pre ++ post) = bytes pre ++ bytes post := List.flatMap_append

theorem size_append : size (pre ++ post) = size pre + size post := by
  simp [size, bytes_append]

theorem size_cons : size (c :: cs) = c.utf8Size + size cs := by
  simp [size, bytes]

theorem size_nil : size [] = 0 := rfl

theorem utf8Size_pos (c : Char) : 0 < c.utf8Size := Char.utf8Size_pos c

theorem length_le_size (cs : List Char) : cs.length ≤ size cs := by
  induction cs with
  | nil => exact Nat.le_refl _
  | cons c cs ih =>
    have := utf8Size_pos c
    rw [size_cons, List.length_cons]
    omega

/-- A byte of a character is the character itself, or not a byte of ASCII. -/
theorem mem_utf8EncodeChar {b : UInt8} (h : b ∈ String.utf8EncodeChar c) :
    String.utf8EncodeChar c = [b] ∧ c.toNat = b.toNat ∨ 128 ≤ b.toNat := by
  have high : ∀ x k : UInt8, 128 ≤ k.toNat → 128 ≤ (x ||| k).toNat := by
    intro x k large
    rw [UInt8.toNat_or]
    exact Nat.le_trans large Nat.right_le_or
  have sizes : c.utf8Size = 1 ∨ c.utf8Size = 2 ∨ c.utf8Size = 3 ∨ c.utf8Size = 4 := by
    have := utf8Size_pos c
    have := Char.utf8Size_le_four c
    omega
  rcases sizes with one | two | three | four
  · left
    have single := String.utf8EncodeChar_eq_singleton one
    rw [single, List.mem_singleton] at h
    refine ⟨by rw [single, h], ?_⟩
    rw [Char.utf8Size_eq_one_iff, UInt32.le_iff_toNat_le] at one
    have small : c.toNat ≤ 127 := one
    rw [h, UInt32.toNat_toUInt8]
    exact (Nat.mod_eq_of_lt (by omega)).symm
  · right
    rw [String.utf8EncodeChar_eq_cons_cons two] at h
    simp only [List.mem_cons, List.not_mem_nil, or_false] at h
    rcases h with rfl | rfl
    · exact high _ _ (by decide)
    · exact high _ _ (by decide)
  · right
    rw [String.utf8EncodeChar_eq_cons_cons_cons three] at h
    simp only [List.mem_cons, List.not_mem_nil, or_false] at h
    rcases h with rfl | rfl | rfl
    · exact high _ _ (by decide)
    · exact high _ _ (by decide)
    · exact high _ _ (by decide)
  · right
    rw [String.utf8EncodeChar_eq_cons_cons_cons_cons four] at h
    simp only [List.mem_cons, List.not_mem_nil, or_false] at h
    rcases h with rfl | rfl | rfl | rfl
    · exact high _ _ (by decide)
    · exact high _ _ (by decide)
    · exact high _ _ (by decide)
    · exact high _ _ (by decide)

/-! ### Where a text may be cut -/

theorem cut_append : cut (pre ++ post) (size pre) = some (pre, post) := by
  induction pre with
  | nil =>
    rw [List.nil_append, size_nil]
    cases post <;> rfl
  | cons c pre ih =>
    have pos := utf8Size_pos c
    obtain ⟨k, eq⟩ : ∃ k, size (c :: pre) = k + 1 := by
      rw [size_cons]
      exact ⟨c.utf8Size + size pre - 1, by omega⟩
    have rest : k + 1 - c.utf8Size = size pre := by
      rw [← eq, size_cons]
      omega
    have small : c.utf8Size ≤ k + 1 := by
      rw [← eq, size_cons]
      omega
    rw [eq, List.cons_append, cut, if_pos small, rest, ih]
    rfl

theorem cut_some {parts : List Char × List Char} (h : cut cs i = some parts) :
    cs = parts.1 ++ parts.2 ∧ size parts.1 = i := by
  induction cs generalizing i parts with
  | nil =>
    cases i with
    | zero =>
      cases h
      exact ⟨rfl, rfl⟩
    | succ i => cases h
  | cons c cs ih =>
    cases i with
    | zero =>
      cases h
      exact ⟨rfl, rfl⟩
    | succ i =>
      rw [cut] at h
      by_cases small : c.utf8Size ≤ i + 1
      · rw [if_pos small, Option.map_eq_some_iff] at h
        obtain ⟨rest, found, rfl⟩ := h
        obtain ⟨eq, length⟩ := ih found
        refine ⟨by rw [List.cons_append, ← eq], ?_⟩
        rw [size_cons, length]
        omega
      · rw [if_neg small] at h
        cases h

section

variable {ε : Type}

theorem upTo_append : upTo (ε := ε) (pre ++ post) (size pre) = .ok pre := by
  unfold upTo
  rw [cut_append]
  rfl

theorem onFrom_append : onFrom (ε := ε) (pre ++ post) (size pre) = .ok post := by
  unfold onFrom
  rw [cut_append]
  rfl

theorem between_append : between (ε := ε) (pre ++ mid ++ post) (size pre) (size pre + size mid) =
    .ok mid := by
  unfold between
  rw [if_pos (Nat.le_add_right _ _), List.append_assoc, onFrom_append, Nat.add_sub_cancel_left]
  exact upTo_append

end

/-! ### Occurrences -/

end Slices
