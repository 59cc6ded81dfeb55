import Mathlib

/-! A trial puts lists of rules to a candidate, one list after the other, and ends in a value
or a refusal. Read plainly it stops at the first rule that does not hold. Read in full it
keeps every failure of a list, and the list is refused only when its last rule has been
read. A rule that cannot be evaluated stops either reading at once. -/

/-- What became of one rule: `fails` is kept by a full reading, `faults` never is. -/
inductive Verdict (ε κ : Type) where
  | holds
  | fails (kept : κ)
  | faults (e : ε)

namespace Verdict

variable {ε κ : Type}

/-- The first rule of a list that could not be evaluated. -/
def firstFault : List (Verdict ε κ) → Option ε
  | [] => none
  | faults e :: _ => some e
  | _ :: vs => firstFault vs

/-- The failures a full reading keeps: those up to the first fault. -/
def kept : List (Verdict ε κ) → List κ
  | [] => []
  | holds :: vs => kept vs
  | fails k :: vs => k :: kept vs
  | faults _ :: _ => []

/-- A rule faults past the failure a plain reading stops at. -/
def Overtaken (vs : List (Verdict ε κ)) : Prop :=
  ∃ before k after e, vs = before ++ fails k :: after ∧ (∀ v ∈ before, v = holds) ∧
    faults e ∈ after

theorem firstFault_append (vs ws : List (Verdict ε κ)) :
    firstFault (vs ++ ws) = (firstFault vs).or (firstFault ws) := by
  induction vs with
  | nil => rfl
  | cons v vs ih => cases v <;> simp [firstFault, ih]

theorem kept_append_of_none {vs : List (Verdict ε κ)} (h : firstFault vs = none)
    (ws : List (Verdict ε κ)) : kept (vs ++ ws) = kept vs ++ kept ws := by
  induction vs with
  | nil => rfl
  | cons v vs ih => cases v <;> simp_all [firstFault, kept]

theorem kept_append_of_some {vs : List (Verdict ε κ)} {e : ε} (h : firstFault vs = some e)
    (ws : List (Verdict ε κ)) : kept (vs ++ ws) = kept vs := by
  induction vs with
  | nil => cases h
  | cons v vs ih => cases v <;> simp_all [firstFault, kept]

@[simp] theorem not_overtaken_nil : ¬ Overtaken ([] : List (Verdict ε κ)) := by
  rintro ⟨before, k, after, e, h, -⟩
  cases before <;> cases h

@[simp] theorem not_overtaken_faults {vs : List (Verdict ε κ)} {e : ε} :
    ¬ Overtaken (faults e :: vs) := by
  rintro ⟨before, k, after, f, h, hbefore, -⟩
  cases before with
  | nil => cases h
  | cons v before =>
      obtain ⟨rfl, -⟩ := List.cons.inj h
      cases hbefore _ List.mem_cons_self

section Charged

variable (charge : κ → ε)

/-- What a plain reading of a list raises. -/
def firstRaised : List (Verdict ε κ) → Option ε
  | [] => none
  | holds :: vs => firstRaised vs
  | fails k :: _ => some (charge k)
  | faults e :: _ => some e

/-- What a full reading of a list raises: a fault at once, else its first failure. -/
def raisedInFull (vs : List (Verdict ε κ)) : Option ε :=
  (firstFault vs).or ((kept vs).head?.map charge)

/-- The two readings can be told apart where a failure is never refused as a fault is. -/
def Distinct (vs : List (Verdict ε κ)) : Prop :=
  ∀ k e, fails k ∈ vs → faults e ∈ vs → charge k ≠ e

variable {charge} {vs ws : List (Verdict ε κ)}

theorem firstRaised_append (vs ws : List (Verdict ε κ)) :
    firstRaised charge (vs ++ ws) = (firstRaised charge vs).or (firstRaised charge ws) := by
  induction vs with
  | nil => rfl
  | cons v vs ih => cases v <;> simp [firstRaised, ih]

theorem firstRaised_eq_none : firstRaised charge vs = none ↔ ∀ v ∈ vs, v = holds := by
  induction vs with
  | nil => simp [firstRaised]
  | cons v vs ih => cases v <;> simp_all [firstRaised]

theorem raisedInFull_eq_none : raisedInFull charge vs = none ↔ ∀ v ∈ vs, v = holds := by
  induction vs with
  | nil => simp [raisedInFull, firstFault, kept]
  | cons v vs ih => cases v <;> simp_all [raisedInFull, firstFault, kept]

/-- A list that does not hold throughout is refused by either reading. -/
theorem raised_of_not_holds (charge : κ → ε) (h : ¬ ∀ v ∈ vs, v = holds) :
    ∃ e f, raisedInFull charge vs = some e ∧ firstRaised charge vs = some f := by
  obtain ⟨e, he⟩ := Option.ne_none_iff_exists'.mp (mt raisedInFull_eq_none.mp h)
  obtain ⟨f, hf⟩ := Option.ne_none_iff_exists'.mp (mt firstRaised_eq_none.mp h)
  exact ⟨e, f, he, hf⟩

/-- A list of which something was kept is refused plainly for the first thing kept. -/
theorem firstRaised_of_kept {k : κ} {ks : List κ} (h : kept vs = k :: ks) :
    firstRaised charge vs = some (charge k) := by
  induction vs with
  | nil => cases h
  | cons v vs ih =>
      cases v with
      | holds => exact ih h
      | fails k' =>
          cases h
          rfl
      | faults e => cases h

/-- With nothing kept the two readings raise the same. -/
theorem raisedInFull_of_kept_nil (h : kept vs = []) :
    raisedInFull charge vs = firstRaised charge vs := by
  induction vs with
  | nil => rfl
  | cons v vs ih =>
      cases v with
      | holds => exact ih h
      | fails k => cases h
      | faults e => rfl

end Charged

end Verdict

/-- Lists of rules put to a candidate, up to a value or a refusal. -/
inductive Trial (ε κ α : Type) where
  | pass (a : α)
  | refuse (e : ε)
  | judge (vs : List (Verdict ε κ)) (rest : Trial ε κ α)

namespace Trial

open Verdict

variable {ε κ α β : Type}

def bind : Trial ε κ α → (α → Trial ε κ β) → Trial ε κ β
  | pass a, f => f a
  | refuse e, _ => refuse e
  | judge vs rest, f => judge vs (rest.bind f)

instance : Monad (Trial ε κ) where
  pure := pass
  bind := bind

def ofExcept : Except ε α → Trial ε κ α
  | .ok a => pass a
  | .error e => refuse e

/-- The lists a trial comes to: none after the first that does not hold throughout. -/
def judged : Trial ε κ α → List (List (Verdict ε κ))
  | pass _ | refuse _ => []
  | judge vs rest =>
      vs :: if vs.all fun v => v matches .holds then rest.judged else []

/-- Every list put anywhere in the trial, come to or not, satisfies `P`. -/
def Every (P : List (Verdict ε κ) → Prop) : Trial ε κ α → Prop
  | pass _ | refuse _ => True
  | judge vs rest => P vs ∧ rest.Every P

section Every

variable {P : List (Verdict ε κ) → Prop}

theorem Every.bind {t : Trial ε κ α} {f : α → Trial ε κ β} (ht : t.Every P)
    (hf : ∀ a, (f a).Every P) : (t >>= f).Every P := by
  induction t with
  | pass a => exact hf a
  | refuse e => trivial
  | judge vs rest ih => exact ⟨ht.1, ih ht.2⟩

theorem every_ofExcept (x : Except ε α) : (ofExcept x : Trial ε κ α).Every P := by
  cases x <;> trivial

end Every

section Readings

variable (charge : κ → ε)

/-- The plain reading. -/
def plain : Trial ε κ α → Except ε α
  | pass a => .ok a
  | refuse e => .error e
  | judge vs rest =>
      match firstRaised charge vs with
      | some e => .error e
      | none => rest.plain

/-- The full reading: its outcome and what it kept. -/
def full : Trial ε κ α → Except ε α × List κ
  | pass a => (.ok a, [])
  | refuse e => (.error e, [])
  | judge vs rest =>
      match raisedInFull charge vs with
      | some e => (.error e, kept vs)
      | none => rest.full

/-- The reading a collector asks for: in full when one is bound, plainly when none is. -/
def under (t : Trial ε κ α) : Option (List κ) → Except ε α × Option (List κ)
  | none => (t.plain charge, none)
  | some log => ((t.full charge).1, some (log ++ (t.full charge).2))

variable {charge}

theorem plain_bind (t : Trial ε κ α) (f : α → Trial ε κ β) :
    (t >>= f).plain charge =
      match t.plain charge with
      | .ok a => (f a).plain charge
      | .error e => .error e := by
  induction t with
  | pass a | refuse e => rfl
  | judge vs rest ih =>
      change (judge vs (rest.bind f)).plain charge = _
      simp only [plain]
      cases firstRaised charge vs with
      | some e => rfl
      | none => exact ih

theorem full_of_ok {t : Trial ε κ α} {a : α} (h : (t.full charge).1 = .ok a) :
    (t.full charge).2 = [] := by
  induction t with
  | pass a | refuse e => rfl
  | judge vs rest ih =>
      simp only [full] at h ⊢
      cases hr : raisedInFull charge vs with
      | some e =>
          rw [hr] at h
          cases h
      | none =>
          rw [hr] at h
          exact ih h

theorem full_bind (t : Trial ε κ α) (f : α → Trial ε κ β) :
    (t >>= f).full charge =
      match t.full charge with
      | (.ok a, _) => (f a).full charge
      | (.error e, log) => (.error e, log) := by
  induction t with
  | pass a | refuse e => rfl
  | judge vs rest ih =>
      change (judge vs (rest.bind f)).full charge = _
      simp only [full]
      cases raisedInFull charge vs with
      | some e => rfl
      | none => exact ih

/-- Either reading passes a trial exactly when the other does, to the same value. -/
theorem full_ok_iff_plain_ok {t : Trial ε κ α} {a : α} :
    (t.full charge).1 = .ok a ↔ t.plain charge = .ok a := by
  induction t with
  | pass a | refuse e => rfl
  | judge vs rest ih =>
      simp only [full, plain]
      by_cases hv : ∀ v ∈ vs, v = holds
      · rw [raisedInFull_eq_none.mpr hv, firstRaised_eq_none.mpr hv]
        exact ih
      · obtain ⟨e, f, he, hf⟩ := raised_of_not_holds charge hv
        rw [he, hf]
        exact iff_of_false (fun h => nomatch h) (fun h => nomatch h)

theorem under_ok {t : Trial ε κ α} {a : α} {c d : Option (List κ)}
    (h : t.under charge c = (.ok a, d)) : t.plain charge = .ok a ∧ d = c := by
  cases c with
  | none =>
      obtain ⟨h1, h2⟩ := Prod.mk.inj h
      exact ⟨h1, h2.symm⟩
  | some log =>
      obtain ⟨h1, h2⟩ := Prod.mk.inj h
      rw [full_of_ok h1, List.append_nil] at h2
      exact ⟨full_ok_iff_plain_ok.mp h1, h2.symm⟩

/-- The first thing a full reading kept is what the plain reading raises; where it kept
nothing, both raise the same. -/
theorem plain_error {t : Trial ε κ α} {e : ε} (h : t.plain charge = .error e) :
    t.full charge = (.error e, []) ∨
      ∃ e' k ks, t.full charge = (.error e', k :: ks) ∧ charge k = e := by
  induction t with
  | pass a => cases h
  | refuse e =>
      cases h
      exact .inl rfl
  | judge vs rest ih =>
      by_cases hv : ∀ v ∈ vs, v = holds
      · simp only [plain, firstRaised_eq_none.mpr hv] at h
        simpa only [full, raisedInFull_eq_none.mpr hv] using ih h
      · obtain ⟨e', f, he', hf⟩ := raised_of_not_holds charge hv
        simp only [plain, hf] at h
        cases h
        simp only [full, he']
        cases hk : kept vs with
        | nil =>
            have heq : raisedInFull charge vs = firstRaised charge vs :=
              raisedInFull_of_kept_nil hk
            rw [he', hf] at heq
            cases heq
            exact .inl rfl
        | cons k ks =>
            have hraised : firstRaised charge vs = some (charge k) := firstRaised_of_kept hk
            rw [hf] at hraised
            exact .inr ⟨e', k, ks, rfl, (Option.some.inj hraised).symm⟩

end Readings

end Trial
