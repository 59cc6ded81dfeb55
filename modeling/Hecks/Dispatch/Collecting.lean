import Hecks.Json
import Hecks.Lib.Trial

/-! Collecting refusals within a stage, for a dry run that answers every reason a command
would be refused. A real dispatch has no collector bound, so a refusal is raised at once. -/
namespace Hecks

/-- Code that returns or refuses, over a state that a refusal does not undo. -/
abbrev Refusing (σ : Type) := ExceptT Refusal (StateM σ)

/-- One run: the outcome and the state it left. -/
def perform {σ α : Type} (m : Refusing σ α) (s : σ) : Except Refusal α × σ := m.run.run s

section Perform

variable {σ α β : Type}

@[simp] theorem perform_pure (a : α) (s : σ) :
    perform (pure a : Refusing σ α) s = (.ok a, s) := rfl

@[simp] theorem perform_throw (r : Refusal) (s : σ) :
    perform (throw r : Refusing σ α) s = (.error r, s) := rfl

theorem perform_bind (m : Refusing σ α) (f : α → Refusing σ β) (s : σ) :
    perform (m >>= f) s =
      match perform m s with
      | (.ok a, t) => perform (f a) t
      | (.error r, t) => (.error r, t) := by
  change (ExceptT.bindCont f (perform m s).1) (perform m s).2 = _
  rcases perform m s with ⟨_ | a, t⟩ <;> rfl

/-- A composition that returned did so at both halves. -/
theorem perform_bind_ok {m : Refusing σ α} {f : α → Refusing σ β} {s t : σ} {b : β}
    (h : perform (m >>= f) s = (.ok b, t)) :
    ∃ a u, perform m s = (.ok a, u) ∧ perform (f a) u = (.ok b, t) := by
  rw [perform_bind] at h
  rcases hm : perform m s with ⟨_ | a, u⟩
  · rw [hm] at h
    cases h
  · rw [hm] at h
    exact ⟨a, u, rfl, h⟩

end Perform

/-- What a refusal is about, beyond its text: the argument and the JSON Pointer to the
offending value, or the description of the rule that did not hold. -/
structure Detail where
  «attribute» : Option String
  path : Option String
  rule : Option String
deriving DecidableEq

namespace Detail

def default : Detail := ⟨none, none, none⟩

/-- A refusal because the rule described by `description` did not hold. -/
def ofRule (description : String) : Detail := { default with rule := some description }

end Detail

/-- A refusal kept by a collector, with what it is about. -/
structure Collected where
  refusal : Refusal
  detail : Detail
deriving DecidableEq

/-- The thread's collector: `none` while none is bound. -/
abbrev Collector := Option (List Collected)

/-- Code whose only state is the collector. -/
abbrev Stage := Refusing Collector

/-- Raises `refusal`, or keeps it and lets the stage go on to the next rule. -/
def refuseWith (refusal : Refusal) (detail : Detail) : Stage Unit := do
  match ← get with
  | some collected => set (some (collected ++ [⟨refusal, detail⟩]))
  | none => throw refusal

/-- How many refusals the collector holds; the mark a stage settles against. -/
def mark : Stage Nat := do
  return (← get).elim 0 List.length

/-- Ends a stage: raises the first refusal it collected since `mark`. -/
def settle (mark : Nat) : Stage Unit := do
  match (← get).bind fun collected => collected[mark]? with
  | some kept => throw kept.refusal
  | none => pure ()

theorem perform_settle (n : Nat) (c : Collector) :
    perform (settle n) c =
      (((c.bind fun collected => collected[n]?).map Collected.refusal).elim (.ok ()) .error,
        c) := by
  rw [settle, perform_bind, show perform (get : Stage Collector) c = (.ok c, c) from rfl]
  cases h : c.bind fun collected => collected[n]? with
  | none => simp only [h]; rfl
  | some k => simp only [h]; rfl

/-- `collecting`: runs `body` with a collector bound, and returns what it collected too. -/
def collecting {α : Type} (body : Stage α) : Except Refusal α × List Collected :=
  let (result, collected) := perform body (some [])
  (result, collected.getD [])

section Rules

open Verdict

/-- Rules put one after the other: the plain run stops at the first that does not hold, the
collecting run at the first that faults. -/
def Tells (m : Stage Unit) (vs : List (Verdict Refusal Collected)) : Prop :=
  perform m none = ((firstRaised Collected.refusal vs).elim (.ok ()) .error, none) ∧
  ∀ log, perform m (some log) =
    ((firstFault vs).elim (.ok ()) .error, some (log ++ kept vs))

theorem tells_pure : Tells (pure ()) [] := by
  refine ⟨rfl, fun log => ?_⟩
  simp [firstFault, kept]

theorem tells_holds : Tells (pure ()) [.holds] := by
  refine ⟨rfl, fun log => ?_⟩
  simp [firstFault, kept]

theorem tells_fault (r : Refusal) : Tells (throw r) [.faults r] := by
  refine ⟨rfl, fun log => ?_⟩
  simp [firstFault, kept]

theorem tells_refuseWith (refusal : Refusal) (detail : Detail) :
    Tells (refuseWith refusal detail) [.fails ⟨refusal, detail⟩] :=
  ⟨rfl, fun _ => rfl⟩

theorem Tells.append {m n : Stage Unit} {vs ws : List (Verdict Refusal Collected)}
    (hm : Tells m vs) (hn : Tells n ws) : Tells (do m; n) (vs ++ ws) := by
  refine ⟨?_, fun log => ?_⟩
  · rw [perform_bind, hm.1, firstRaised_append]
    cases firstRaised Collected.refusal vs with
    | none => exact hn.1
    | some r => rfl
  · rw [perform_bind, hm.2 log, firstFault_append]
    cases hv : firstFault vs with
    | none =>
        rw [kept_append_of_none hv, ← List.append_assoc]
        exact hn.2 (log ++ kept vs)
    | some r =>
        rw [kept_append_of_some hv]
        rfl

theorem Tells.forM {ι : Type} {f : ι → Stage Unit}
    {g : ι → List (Verdict Refusal Collected)} (h : ∀ x, Tells (f x) (g x)) (xs : List ι) :
    Tells (xs.forM f) (xs.flatMap g) := by
  induction xs with
  | nil => exact tells_pure
  | cons x xs ih => exact (h x).append ih

end Rules

/-- The stage answers as the trial does, with a collector or without. -/
def Follows {α : Type} (m : Stage α) (t : Trial Refusal Collected α) : Prop :=
  ∀ c, perform m c = t.under Collected.refusal c

namespace Follows

variable {α β : Type}

theorem pure (a : α) : Follows (Pure.pure a) (.pass a) := by
  rintro (_ | log)
  · rfl
  · simp [Trial.under, Trial.full]

theorem throw (r : Refusal) : Follows (throw r : Stage α) (.refuse r) := by
  rintro (_ | log)
  · rfl
  · simp [Trial.under, Trial.full]

theorem ofExcept (x : Except Refusal α) : Follows (liftM x) (.ofExcept x) := by
  cases x with
  | ok a => exact pure a
  | error r => exact throw r

theorem bind {m : Stage α} {t : Trial Refusal Collected α} {f : α → Stage β}
    {g : α → Trial Refusal Collected β} (hm : Follows m t) (hf : ∀ a, Follows (f a) (g a)) :
    Follows (m >>= f) (t >>= g) := by
  rintro (_ | log)
  · rw [perform_bind, hm none]
    simp only [Trial.under, Trial.plain_bind]
    cases ht : t.plain Collected.refusal with
    | ok a => exact hf a none
    | error r => rfl
  · rw [perform_bind, hm (some log)]
    simp only [Trial.under, Trial.full_bind]
    cases ht : (t.full Collected.refusal).1 with
    | ok a =>
        have hkept := Trial.full_of_ok ht
        rw [show t.full Collected.refusal = (.ok a, []) from Prod.ext ht hkept,
          List.append_nil]
        exact hf a (some log)
    | error r =>
        rw [show t.full Collected.refusal = (.error r, (t.full Collected.refusal).2) from
          Prod.ext ht rfl]

/-- Marking, reading every rule and settling is judging the rules as one list. -/
theorem judge {m : Stage Unit} {vs : List (Verdict Refusal Collected)} (h : Tells m vs) :
    Follows (do let stage ← mark; m; settle stage) (.judge vs (.pass ())) := by
  rintro (_ | log)
  · have hmark : perform mark none = (.ok 0, none) := rfl
    rw [perform_bind, hmark]
    simp only [perform_bind, h.1, Trial.under, Trial.plain]
    cases Verdict.firstRaised Collected.refusal vs with
    | none => rfl
    | some r => rfl
  · have hmark : perform mark (some log) = (.ok log.length, some log) := rfl
    rw [perform_bind, hmark]
    simp only [perform_bind, h.2 log, Trial.under, Trial.full, Verdict.raisedInFull]
    cases hf : Verdict.firstFault vs with
    | some r => rfl
    | none =>
        -- Nothing faulted, so the settled refusal is the first one this stage kept.
        simp only [Option.elim_none, Option.none_or, perform_settle, Option.bind_some]
        cases Verdict.kept vs with
        | nil => simp
        | cons k ks => simp

theorem noRules : Follows (Pure.pure ()) (.judge [] (.pass ())) := by
  rintro (_ | log)
  · rfl
  · simp [Trial.under, Trial.full, Verdict.raisedInFull, Verdict.firstFault, Verdict.kept]

end Follows

end Hecks
