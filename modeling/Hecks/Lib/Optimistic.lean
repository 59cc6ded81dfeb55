import Mathlib

/-! Writers of one versioned cell. A writer reads the cell, works out from what it read what to
write, and writes that: a guarded writer only where the cell still has the version it read, an
unguarded one over whatever is there. As long as no other write changes what an unguarded writer
worked out, every run leaves what the accepted writers leave one after the other. -/
namespace Optimistic

variable {ι σ τ ε : Type}

/-- `work` gives what to write or a refusal, `commit` puts it into the cell; a writer whose write
comes too late reads again until it has read `attempts` times. -/
structure Writers (ι σ τ ε : Type) where
  work : ι → σ → Except ε τ
  commit : τ → σ → σ
  guarded : ι → Bool
  attempts : Nat
  stale : ε

/-- `tried` counts the writes that came too late. -/
inductive Phase (τ ε : Type) where
  | ready (tried : Nat)
  | holding (tried : Nat) (written : τ) (version : Nat)
  | accepted
  | refused (error : ε)

def Phase.isAccepted : Phase τ ε → Bool
  | accepted => true
  | _ => false

theorem eq_accepted {p : Phase τ ε} (h : p.isAccepted = true) : p = .accepted := by
  cases p <;> first | rfl | cases h

structure Cell (ι σ τ ε : Type) where
  value : σ
  version : Nat
  phase : ι → Phase τ ε

inductive Action (ι : Type) where
  | read (writer : ι)
  | write (writer : ι)

variable [DecidableEq ι]

def Cell.become (c : Cell ι σ τ ε) (i : ι) (p : Phase τ ε) : Cell ι σ τ ε :=
  { c with phase := Function.update c.phase i p }

namespace Writers

variable (W : Writers ι σ τ ε)

def read (c : Cell ι σ τ ε) (i : ι) (tried : Nat) : Cell ι σ τ ε :=
  match W.work i c.value with
  | .ok written => c.become i (.holding tried written c.version)
  | .error refusal => c.become i (.refused refusal)

def write (c : Cell ι σ τ ε) (i : ι) (tried : Nat) (written : τ) (version : Nat) :
    Cell ι σ τ ε :=
  if W.guarded i = true ∧ version ≠ c.version then
    c.become i (if tried + 1 < W.attempts then .ready (tried + 1) else .refused W.stale)
  else
    { c with value := W.commit written c.value, version := c.version + 1 }.become i .accepted

def step (c : Cell ι σ τ ε) : Action ι → Option (Cell ι σ τ ε)
  | .read i =>
      match c.phase i with
      | .ready tried => some (W.read c i tried)
      | _ => none
  | .write i =>
      match c.phase i with
      | .holding tried written version => some (W.write c i tried written version)
      | _ => none

def run (actions : List (Action ι)) (c : Cell ι σ τ ε) : Option (Cell ι σ τ ε) :=
  actions.foldlM W.step c

/-- The writer alone, from its read to its write. -/
def effect (s : σ) (i : ι) : Except ε σ := (W.work i s).map fun written => W.commit written s

/-- These writers, one after the other. -/
def serial (order : List ι) (s : σ) : Except ε σ := order.foldlM W.effect s

/-- What `i` worked out stands after a write of `j`. -/
def Absorbs (i j : ι) : Prop :=
  ∀ s written other, W.work i s = .ok written → W.work j s = .ok other →
    W.work i (W.commit other s) = .ok written

end Writers

def start (s : σ) (version : Nat) : Cell ι σ τ ε := ⟨s, version, fun _ => .ready 0⟩

@[simp] theorem become_value (c : Cell ι σ τ ε) (i : ι) (p : Phase τ ε) :
    (c.become i p).value = c.value := rfl

@[simp] theorem become_version (c : Cell ι σ τ ε) (i : ι) (p : Phase τ ε) :
    (c.become i p).version = c.version := rfl

theorem become_self (c : Cell ι σ τ ε) (i : ι) (p : Phase τ ε) : (c.become i p).phase i = p := by
  simp only [Cell.become, Function.update_self]

theorem become_other (c : Cell ι σ τ ε) {i j : ι} (p : Phase τ ε) (other : j ≠ i) :
    (c.become i p).phase j = c.phase j := by
  simp only [Cell.become, Function.update_of_ne other]

variable {W : Writers ι σ τ ε} {s : σ} {order : List ι} {c d : Cell ι σ τ ε}

/-- The accepted writers in the order they wrote account for the cell, and what a writer holds is
what it would work out now, if its write is to be accepted. -/
structure Inv (W : Writers ι σ τ ε) (s : σ) (order : List ι) (c : Cell ι σ τ ε) : Prop where
  once : order.Nodup
  wrote : ∀ i, i ∈ order ↔ c.phase i = .accepted
  account : W.serial order s = .ok c.value
  past : ∀ i tried written version, c.phase i = .holding tried written version →
    version ≤ c.version
  holds : ∀ i tried written version, c.phase i = .holding tried written version →
    (W.guarded i = true → version = c.version) → W.work i c.value = .ok written

omit [DecidableEq ι] in
theorem inv_start (version : Nat) : Inv W s [] (start s version) where
  once := List.nodup_nil
  wrote i := ⟨fun mem => absurd mem List.not_mem_nil, fun same => by cases same⟩
  account := rfl
  past i tried written held same := by cases same
  holds i tried written held same := by cases same

/-- A writer that moves on without a write leaves the account as it is. -/
theorem Inv.become (h : Inv W s order c) {i : ι} {p : Phase τ ε} (still : c.phase i ≠ .accepted)
    (open' : p ≠ .accepted)
    (held : ∀ tried written version, p = .holding tried written version →
      version = c.version ∧ W.work i c.value = .ok written) :
    Inv W s order (c.become i p) where
  once := h.once
  wrote j := by
    rw [h.wrote j]
    by_cases same : j = i
    · subst same
      rw [become_self]
      exact iff_of_false still open'
    · rw [become_other c p same]
  account := h.account
  past j tried written version phase := by
    by_cases same : j = i
    · subst same
      rw [become_self] at phase
      exact (held tried written version phase).1.le
    · rw [become_other c p same] at phase
      exact h.past j tried written version phase
  holds j tried written version phase current := by
    by_cases same : j = i
    · subst same
      rw [become_self] at phase
      exact (held tried written version phase).2
    · rw [become_other c p same] at phase
      exact h.holds j tried written version phase current

theorem Inv.read (h : Inv W s order c) {i : ι} {tried : Nat} (ready : c.phase i = .ready tried) :
    Inv W s order (W.read c i tried) := by
  have still : c.phase i ≠ .accepted := by
    rw [ready]
    exact fun same => by cases same
  unfold Writers.read
  cases worked : W.work i c.value with
  | ok written =>
    apply h.become still (fun same => by cases same)
    intro _ _ _ same
    cases same
    exact ⟨rfl, worked⟩
  | error refusal =>
    apply h.become still (fun same => by cases same)
    intro _ _ _ same
    cases same

theorem Inv.commit (h : Inv W s order c)
    (absorbs : ∀ i j, W.guarded i = false → i ≠ j → W.Absorbs i j) {i : ι} {tried : Nat}
    {written : τ} {version : Nat} (holding : c.phase i = .holding tried written version)
    (current : W.guarded i = true → version = c.version) :
    Inv W s (order ++ [i])
      (Cell.become { c with value := W.commit written c.value, version := c.version + 1 } i
        .accepted) := by
  have worked : W.work i c.value = .ok written := h.holds i tried written version holding current
  have fresh : i ∉ order := by
    intro mem
    rw [h.wrote i, holding] at mem
    cases mem
  refine ⟨?_, ?_, ?_, ?_, ?_⟩
  · rw [List.nodup_append]
    refine ⟨h.once, List.nodup_singleton i, ?_⟩
    intro j mem k last same
    rw [List.mem_singleton.mp last] at same
    exact fresh (same ▸ mem)
  · intro j
    rw [List.mem_append, List.mem_singleton]
    by_cases same : j = i
    · subst same
      rw [become_self]
      exact iff_of_true (Or.inr rfl) rfl
    · rw [become_other _ _ same, h.wrote j]
      exact or_iff_left same
  · rw [Writers.serial, List.foldlM_append]
    have before : order.foldlM W.effect s = .ok c.value := h.account
    rw [before]
    show ([i].foldlM W.effect c.value : Except ε σ) = _
    rw [List.foldlM_cons, Writers.effect, worked]
    rfl
  · intro j tried' written' version' phase
    by_cases same : j = i
    · subst same
      rw [become_self] at phase
      cases phase
    · rw [become_other _ _ same] at phase
      exact (h.past j tried' written' version' phase).trans (Nat.le_succ _)
  · intro j tried' written' version' phase now
    by_cases same : j = i
    · subst same
      rw [become_self] at phase
      cases phase
    · rw [become_other _ _ same] at phase
      -- another write has raised the version, so only an unguarded writer is asked about
      have older : version' ≤ c.version := h.past j tried' written' version' phase
      have unguarded : W.guarded j = false := by
        cases guard : W.guarded j with
        | false => rfl
        | true =>
          have raised : version' = c.version + 1 := now guard
          omega
      have before : W.work j c.value = .ok written' := by
        apply h.holds j tried' written' version' phase
        intro guard
        rw [unguarded] at guard
        cases guard
      exact absorbs j i unguarded same c.value written' written before worked

theorem Inv.step (h : Inv W s order c)
    (absorbs : ∀ i j, W.guarded i = false → i ≠ j → W.Absorbs i j) {a : Action ι}
    (stepped : W.step c a = some d) : ∃ order, Inv W s order d := by
  cases a with
  | read i =>
    cases phase : c.phase i <;> simp only [Writers.step, phase] at stepped <;> try cases stepped
    exact ⟨order, h.read phase⟩
  | write i =>
    cases phase : c.phase i <;> simp only [Writers.step, phase] at stepped <;> try cases stepped
    rename_i tried written version
    have still : c.phase i ≠ .accepted := by
      rw [phase]
      exact fun same => by cases same
    unfold Writers.write
    split
    · refine ⟨order, h.become still ?_ ?_⟩
      · split <;> exact fun same => by cases same
      · intro _ _ _ same
        split at same <;> cases same
    · rename_i current
      refine ⟨order ++ [i], h.commit absorbs phase ?_⟩
      intro guard
      by_contra late
      exact current ⟨guard, late⟩

theorem Inv.run (h : Inv W s order c)
    (absorbs : ∀ i j, W.guarded i = false → i ≠ j → W.Absorbs i j) {actions : List (Action ι)}
    (ran : W.run actions c = some d) : ∃ order, Inv W s order d := by
  induction actions generalizing order c with
  | nil =>
    cases ran
    exact ⟨order, h⟩
  | cons a actions ih =>
    rw [Writers.run, List.foldlM_cons] at ran
    cases stepped : W.step c a with
    | none =>
      rw [stepped] at ran
      cases ran
    | some c' =>
      rw [stepped] at ran
      obtain ⟨order', h'⟩ := h.step absorbs stepped
      exact ih h' ran

/-- Every run leaves what its accepted writers leave in the order they wrote. -/
theorem serializable (absorbs : ∀ i j, W.guarded i = false → i ≠ j → W.Absorbs i j)
    {actions : List (Action ι)} {version : Nat} (ran : W.run actions (start s version) = some d) :
    ∃ order : List ι, order.Nodup ∧ (∀ i, i ∈ order ↔ d.phase i = .accepted) ∧
      W.serial order s = .ok d.value := by
  obtain ⟨order, h⟩ := (inv_start version).run absorbs ran
  exact ⟨order, h.once, h.wrote, h.account⟩

end Optimistic
