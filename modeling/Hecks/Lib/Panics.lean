import Mathlib

/-! Computations that answer, refuse or panic, and the operations of Rust that panic: 64-bit
arithmetic out of range, an index out of range, a value unwrapped that is not there. -/
namespace Panics

/-- How a computation stops short of an answer. -/
inductive Halt (ε : Type) where
  | refused (e : ε)
  | panicked (reason : String)

abbrev Run (ε α : Type) := Except (Halt ε) α

section

variable {ε α β : Type}

def refuse (e : ε) : Run ε α := .error (.refused e)

def abort (reason : String) : Run ε α := .error (.panicked reason)

def orRefuse (x : Option α) (e : ε) : Run ε α :=
  match x with
  | some a => pure a
  | none => refuse e

/-- The computation answers, or refuses with an `ε` that satisfies `P`: it does not panic. -/
def Settles (P : ε → Prop) (x : Run ε α) : Prop := ∀ h, x = .error h → ∃ e, h = .refused e ∧ P e

variable {P : ε → Prop} {x : Run ε α} {f : α → Run ε β}

theorem settles_ok (a : α) : Settles P (.ok a : Run ε α) := by
  intro h eq
  cases eq

theorem settles_pure (a : α) : Settles P (pure a : Run ε α) := settles_ok a

theorem settles_refuse {e : ε} (he : P e) : Settles P (refuse e : Run ε α) := by
  intro h eq
  cases eq
  exact ⟨e, rfl, he⟩

theorem settles_orRefuse {o : Option α} {e : ε} (he : P e) : Settles P (orRefuse o e) := by
  cases o with
  | none => exact settles_refuse he
  | some a => exact settles_pure a

theorem settles_bind (hx : Settles P x) (hf : ∀ a, x = .ok a → Settles P (f a)) :
    Settles P (x >>= f) := by
  cases x with
  | error h =>
    intro h' eq
    cases eq
    exact hx h rfl
  | ok a => exact hf a rfl

theorem settles_ite {c : Prop} [Decidable c] {y : Run ε α} (hx : c → Settles P x)
    (hy : ¬ c → Settles P y) : Settles P (if c then x else y) := by
  by_cases h : c
  · rw [if_pos h]
    exact hx h
  · rw [if_neg h]
    exact hy h

theorem settles_mapM {γ : Type} {g : γ → Run ε β} {xs : List γ}
    (each : ∀ c ∈ xs, Settles P (g c)) : Settles P (xs.mapM g) := by
  induction xs with
  | nil => exact settles_pure []
  | cons c xs ih =>
    rw [List.mapM_cons]
    apply settles_bind (each c List.mem_cons_self)
    intro b _
    apply settles_bind (ih fun d hd => each d (List.mem_cons_of_mem _ hd))
    intro bs _
    exact settles_pure (b :: bs)

/-- What a settled computation comes to, with the panic it cannot reach left out. -/
theorem Settles.cases (h : Settles P x) : (∃ a, x = .ok a) ∨ ∃ e, x = refuse e ∧ P e := by
  cases eq : x with
  | ok a => exact .inl ⟨a, rfl⟩
  | error halt =>
    obtain ⟨e, rfl, he⟩ := h halt eq
    exact .inr ⟨e, rfl, he⟩

end

/-! ### Two computations that end alike -/

section

variable {ε α β γ δ : Type} {P : ε → Prop}

/-- The computation refuses, with an `ε` that satisfies `P`. -/
def Refuses (P : ε → Prop) (x : Run ε α) : Prop := ∃ e, x = refuse e ∧ P e

/-- Both computations answer, and the answers are related, or both refuse. -/
def Agree (P : ε → Prop) (R : α → β → Prop) (x : Run ε α) (y : Run ε β) : Prop :=
  (∃ a b, x = .ok a ∧ y = .ok b ∧ R a b) ∨ (Refuses P x ∧ Refuses P y)

variable {R : α → β → Prop} {S : γ → δ → Prop} {x : Run ε α} {y : Run ε β}
  {f : α → Run ε γ} {g : β → Run ε δ}

theorem refuses_refuse {e : ε} (he : P e) : Refuses P (refuse e : Run ε α) := ⟨e, rfl, he⟩

theorem Refuses.bind (h : Refuses P x) : Refuses P (x >>= f) := by
  obtain ⟨e, rfl, he⟩ := h
  exact ⟨e, rfl, he⟩

theorem Settles.refuses_bind (hx : Settles P x) (hf : ∀ a, x = .ok a → Refuses P (f a)) :
    Refuses P (x >>= f) := by
  rcases hx.cases with ⟨a, rfl⟩ | ⟨e, rfl, he⟩
  · exact hf a rfl
  · exact ⟨e, rfl, he⟩

theorem agree_ok {a : α} {b : β} (h : R a b) : Agree P R (.ok a) (.ok b) :=
  .inl ⟨a, b, rfl, rfl, h⟩

theorem agree_pure {a : α} {b : β} (h : R a b) : Agree P R (pure a : Run ε α) (pure b) := agree_ok h

theorem agree_refuses (hx : Refuses P x) (hy : Refuses P y) : Agree P R x y := .inr ⟨hx, hy⟩

/-- A computation that settles agrees with itself. -/
theorem Settles.agree {Q : α → α → Prop} {x : Run ε α} (hx : Settles P x) (refl : ∀ a, Q a a) :
    Agree P Q x x := by
  rcases hx.cases with ⟨a, rfl⟩ | ⟨e, rfl, he⟩
  · exact agree_ok (refl a)
  · exact agree_refuses ⟨e, rfl, he⟩ ⟨e, rfl, he⟩

theorem Agree.bind (hxy : Agree P R x y) (hfg : ∀ a b, x = .ok a → R a b → Agree P S (f a) (g b)) :
    Agree P S (x >>= f) (y >>= g) := by
  rcases hxy with ⟨a, b, rfl, rfl, h⟩ | ⟨hx, hy⟩
  · exact hfg a b rfl h
  · exact agree_refuses hx.bind hy.bind

theorem Agree.mono {Q : α → β → Prop} (h : Agree P R x y) (imp : ∀ a b, R a b → Q a b) :
    Agree P Q x y := by
  rcases h with ⟨a, b, rfl, rfl, h⟩ | ⟨hx, hy⟩
  · exact agree_ok (imp a b h)
  · exact agree_refuses hx hy

theorem agree_mapM {xs : List α} {ys : List β} (h : List.Forall₂ R xs ys)
    (each : ∀ a ∈ xs, ∀ b, R a b → Agree P S (f a) (g b)) :
    Agree P (List.Forall₂ S) (xs.mapM f) (ys.mapM g) := by
  induction h with
  | nil => exact agree_pure .nil
  | @cons a b xs ys head _ ih =>
    rw [List.mapM_cons, List.mapM_cons]
    apply (each a List.mem_cons_self b head).bind
    intro c d _ first
    apply (ih fun a mem => each a (List.mem_cons_of_mem _ mem)).bind
    intro cs ds _ rest
    exact agree_pure (.cons first rest)

end

/-! ### 64-bit integers -/

section

variable {ε : Type}

/-- An integer within the range of 64 bits. -/
def Fits (i : Int) : Prop := Int64.minValue.toInt ≤ i ∧ i ≤ Int64.maxValue.toInt

instance (i : Int) : Decidable (Fits i) := inferInstanceAs (Decidable (_ ∧ _))

theorem fits_iff {i : Int} : Fits i ↔ -9223372036854775808 ≤ i ∧ i ≤ 9223372036854775807 :=
  Iff.rfl

theorem fits_toInt (n : Int64) : Fits n.toInt := ⟨n.minValue_le_toInt, n.toInt_le⟩

def checked (i : Int) : Option Int64 := if Fits i then some (Int64.ofInt i) else none

def checkedAdd (a b : Int64) : Option Int64 := checked (a.toInt + b.toInt)

def checkedSub (a b : Int64) : Option Int64 := checked (a.toInt - b.toInt)

def checkedMul (a b : Int64) : Option Int64 := checked (a.toInt * b.toInt)

/-- Truncating, `None` on a zero divisor and where the quotient does not fit. -/
def checkedDiv (a b : Int64) : Option Int64 :=
  if b = 0 then none else checked (a.toInt.tdiv b.toInt)

/-- A result that panics out of range, as `+` and `-` do where overflow is checked. -/
def exactly (i : Int) : Run ε Int64 :=
  if Fits i then pure (Int64.ofInt i) else abort "attempt to compute with overflow"

/-- `%`: truncating; panics on a zero divisor, and on `i64::MIN % -1`. -/
def rem (a b : Int64) : Run ε Int64 :=
  if b = 0 then abort "attempt to calculate the remainder with a divisor of zero"
  else if Fits (a.toInt.tdiv b.toInt) then pure (Int64.ofInt (a.toInt.tmod b.toInt))
  else abort "attempt to calculate the remainder with overflow"

/-- `split_at`, on a text of one-byte characters. -/
def splitAt {α : Type} (xs : List α) (i : Nat) : Run ε (List α × List α) :=
  if i ≤ xs.length then pure (xs.splitAt i) else abort "split index out of range"

/-- `a - b` of sizes. -/
def subSize (a b : Nat) : Run ε Nat :=
  if b ≤ a then pure (a - b) else abort "attempt to subtract with overflow"

variable {P : ε → Prop}

theorem settles_exactly {i : Int} (h : Fits i) : Settles P (exactly i : Run ε Int64) := by
  rw [exactly, if_pos h]
  exact settles_pure _

theorem settles_rem {a b : Int64} (nonzero : b ≠ 0) (fits : Fits (a.toInt.tdiv b.toInt)) :
    Settles P (rem a b : Run ε Int64) := by
  rw [rem, if_neg nonzero, if_pos fits]
  exact settles_pure _

theorem settles_splitAt {α : Type} {xs : List α} {i : Nat} (h : i ≤ xs.length) :
    Settles P (splitAt xs i : Run ε (List α × List α)) := by
  rw [splitAt, if_pos h]
  exact settles_pure _

theorem settles_subSize {a b : Nat} (h : b ≤ a) : Settles P (subSize a b : Run ε Nat) := by
  rw [subSize, if_pos h]
  exact settles_pure _

theorem checked_eq_some {i : Int} {n : Int64} (h : checked i = some n) : Fits i ∧ n.toInt = i := by
  unfold checked at h
  split at h
  next fits =>
    cases h
    exact ⟨fits, Int64.toInt_ofInt_of_le fits.1 (Int.lt_add_one_of_le fits.2)⟩
  next => cases h

/-! Arithmetic that wraps is the arithmetic of the integers as long as the results fit. -/

variable {a b : Int64} {i j : ℤ}

theorem toInt_bmod (fits : Fits i) : i.bmod (2 ^ 64) = i := by
  rw [fits_iff] at fits
  apply Int.bmod_eq_of_le <;> omega

theorem toInt_add (ha : a.toInt = i) (hb : b.toInt = j) (fits : Fits (i + j)) :
    (a + b).toInt = i + j := by
  rw [Int64.toInt_add, ha, hb, toInt_bmod fits]

theorem toInt_sub (ha : a.toInt = i) (hb : b.toInt = j) (fits : Fits (i - j)) :
    (a - b).toInt = i - j := by
  rw [Int64.toInt_sub, ha, hb, toInt_bmod fits]

theorem toInt_mul (ha : a.toInt = i) (hb : b.toInt = j) (fits : Fits (i * j)) :
    (a * b).toInt = i * j := by
  rw [Int64.toInt_mul, ha, hb, toInt_bmod fits]

theorem toInt_div (ha : a.toInt = i) (hb : b.toInt = j) (fits : Fits (i.tdiv j)) :
    (a / b).toInt = i.tdiv j := by
  rw [Int64.toInt_div, ha, hb, toInt_bmod fits]

theorem toInt_ite {p q : Prop} [Decidable p] [Decidable q] (same : p ↔ q) (ha : a.toInt = i)
    (hb : b.toInt = j) : (if p then a else b).toInt = if q then i else j := by
  by_cases h : p
  · rw [if_pos h, if_pos (same.mp h), ha]
  · rw [if_neg h, if_neg fun k => h (same.mpr k), hb]

end

end Panics
