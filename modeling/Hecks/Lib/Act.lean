import Mathlib

/-! Computations over a state that may be cut short. A computation that runs out of fuel
returns nothing but keeps the state it had reached, so a statement about every fuel is a
statement about every prefix of a run, finite or not. -/

/-- A computation: the value it returned, if it did, and the state it left. -/
def Act (σ α : Type) : Type := σ → Option α × σ

namespace Act

variable {σ α β ι : Type}

/-- Out of fuel: nothing is returned and the state stays. -/
def stop : Act σ α := fun s => (none, s)

def modify (u : σ → σ) : Act σ Unit := fun s => (some (), u s)

def read (f : σ → α) : Act σ α := fun s => (some (f s), s)

def bind (f : Act σ α) (g : α → Act σ β) : Act σ β := fun s =>
  match f s with
  | (some a, t) => g a t
  | (none, t) => (none, t)

instance : Monad (Act σ) where
  pure a := fun s => (some a, s)
  bind := bind

/-- One computation after the other, for each item of a list in order. -/
def forEach (xs : List ι) (f : ι → Act σ Unit) : Act σ Unit :=
  match xs with
  | [] => pure ()
  | x :: xs => do f x; forEach xs f

@[simp] theorem pure_apply (a : α) (s : σ) : (pure a : Act σ α) s = (some a, s) := rfl

theorem bind_of_some {f : Act σ α} {g : α → Act σ β} {s t : σ} {a : α}
    (h : f s = (some a, t)) : (f >>= g) s = g a t := by
  change Act.bind f g s = g a t
  simp only [Act.bind, h]

theorem bind_of_none {f : Act σ α} {g : α → Act σ β} {s t : σ}
    (h : f s = (none, t)) : (f >>= g) s = (none, t) := by
  change Act.bind f g s = (none, t)
  simp only [Act.bind, h]

/-- A returned composition returned at both halves. -/
theorem bind_eq_some {f : Act σ α} {g : α → Act σ β} {s t : σ} {b : β}
    (h : (f >>= g) s = (some b, t)) : ∃ a u, f s = (some a, u) ∧ g a u = (some b, t) := by
  cases hf : f s with
  | mk o u =>
      cases o with
      | none => rw [bind_of_none hf] at h; cases h
      | some a => exact ⟨a, u, rfl, (bind_of_some hf).symm.trans h⟩

/-! ### Pre- and postconditions -/

section Triples

/-- From a state in `P` the computation returns into `Q`, or is cut short in `E`. -/
def Triple (P : σ → Prop) (f : Act σ α) (Q : α → σ → Prop) (E : σ → Prop) : Prop :=
  ∀ s, P s → (∀ a t, f s = (some a, t) → Q a t) ∧ (∀ t, f s = (none, t) → E t)

variable {P P' : σ → Prop} {Q Q' : α → σ → Prop} {E : σ → Prop}

theorem Triple.pure {a : α} (h : ∀ s, P s → Q a s) : Triple P (Pure.pure a : Act σ α) Q E := by
  intro s hs
  refine ⟨?_, ?_⟩
  · rintro b t ⟨⟩
    exact h s hs
  · rintro t ⟨⟩

theorem Triple.stop (h : ∀ s, P s → E s) : Triple P (Act.stop : Act σ α) Q E := by
  intro s hs
  refine ⟨?_, ?_⟩
  · rintro b t ⟨⟩
  · rintro t ⟨⟩
    exact h s hs

theorem Triple.modify {u : σ → σ} {Q : Unit → σ → Prop} (h : ∀ s, P s → Q () (u s)) :
    Triple P (Act.modify u) Q E := by
  intro s hs
  refine ⟨?_, ?_⟩
  · rintro b t ⟨⟩
    exact h s hs
  · rintro t ⟨⟩

theorem Triple.read {f : σ → α} (h : ∀ s, P s → Q (f s) s) : Triple P (Act.read f) Q E := by
  intro s hs
  refine ⟨?_, ?_⟩
  · rintro b t ⟨⟩
    exact h s hs
  · rintro t ⟨⟩

theorem Triple.bind {f : Act σ α} {g : α → Act σ β} {R : β → σ → Prop}
    (hf : Triple P f Q E) (hg : ∀ a, Triple (Q a) (g a) R E) : Triple P (f >>= g) R E := by
  intro s hs
  cases hfs : f s with
  | mk o t =>
      cases o with
      | none =>
          rw [bind_of_none hfs]
          refine ⟨?_, ?_⟩
          · rintro b u ⟨⟩
          · rintro u ⟨⟩
            exact (hf s hs).2 t hfs
      | some a =>
          rw [bind_of_some hfs]
          exact hg a t ((hf s hs).1 a t hfs)

theorem Triple.weaken {f : Act σ α} (h : Triple P f Q E) (hP : ∀ s, P' s → P s)
    (hQ : ∀ a s, Q a s → Q' a s) : Triple P' f Q' E := by
  intro s hs
  obtain ⟨h1, h2⟩ := h s (hP s hs)
  exact ⟨fun a t ht => hQ a t (h1 a t ht), h2⟩

theorem Triple.of_exists {κ : Type} {P : κ → σ → Prop} {f : Act σ α}
    (h : ∀ x, Triple (P x) f Q E) : Triple (fun s => ∃ x, P x s) f Q E :=
  fun s ⟨x, hs⟩ => h x s hs

/-- A loop keeps what each of its rounds keeps. -/
theorem Triple.forEach {xs : List ι} {f : ι → Act σ Unit}
    (h : ∀ x ∈ xs, Triple P (f x) (fun _ => P) E) : Triple P (forEach xs f) (fun _ => P) E := by
  induction xs with
  | nil => exact .pure fun _ hs => hs
  | cons x xs ih =>
      refine .bind (h x List.mem_cons_self) fun _ => ih ?_
      exact fun y hy => h y (List.mem_cons_of_mem _ hy)

end Triples

/-! ### More fuel -/

section Fuel

/-- `g` returns whatever `f` returns. -/
def Extends (f g : Act σ α) : Prop := ∀ s a t, f s = (some a, t) → g s = (some a, t)

theorem Extends.refl (f : Act σ α) : Extends f f := fun _ _ _ h => h

theorem Extends.trans {f g h : Act σ α} (hfg : Extends f g) (hgh : Extends g h) : Extends f h :=
  fun s a t hs => hgh s a t (hfg s a t hs)

theorem Extends.stop (f : Act σ α) : Extends (Act.stop : Act σ α) f := by
  rintro s a t ⟨⟩

theorem Extends.bind {f f' : Act σ α} {g g' : α → Act σ β} (hf : Extends f f')
    (hg : ∀ a, Extends (g a) (g' a)) : Extends (f >>= g) (f' >>= g') := by
  intro s b t h
  obtain ⟨a, u, ha, hb⟩ := bind_eq_some h
  rw [bind_of_some (hf s a u ha)]
  exact hg a u b t hb

theorem Extends.forEach {xs : List ι} {f f' : ι → Act σ Unit}
    (h : ∀ x ∈ xs, Extends (f x) (f' x)) : Extends (forEach xs f) (forEach xs f') := by
  induction xs with
  | nil => exact .refl _
  | cons x xs ih =>
      refine .bind (h x List.mem_cons_self) fun _ => ih ?_
      exact fun y hy => h y (List.mem_cons_of_mem _ hy)

/-- What holds where the computation left held where it began. -/
def Backward (P : σ → Prop) (f : Act σ α) : Prop := ∀ s, P (f s).2 → P s

variable {P : σ → Prop}

theorem Backward.pure (a : α) : Backward P (Pure.pure a : Act σ α) := fun _ h => h

theorem Backward.stop : Backward P (Act.stop : Act σ α) := fun _ h => h

theorem Backward.read (f : σ → α) : Backward P (Act.read f) := fun _ h => h

theorem Backward.bind {f : Act σ α} {g : α → Act σ β} (hf : Backward P f)
    (hg : ∀ a, Backward P (g a)) : Backward P (f >>= g) := by
  intro s h
  cases hfs : f s with
  | mk o t =>
      cases o with
      | none =>
          rw [bind_of_none hfs] at h
          exact hf s (by rw [hfs]; exact h)
      | some a =>
          rw [bind_of_some hfs] at h
          exact hf s (by rw [hfs]; exact hg a t h)

theorem Backward.forEach {xs : List ι} {f : ι → Act σ Unit} (h : ∀ x, Backward P (f x)) :
    Backward P (forEach xs f) := by
  induction xs with
  | nil => exact .pure ()
  | cons x xs ih => exact .bind (h x) fun _ => ih

/-- Given that `P` holds along the run for all large fuels, some fuel is enough. -/
def Converges (P : σ → Prop) (f : Nat → Act σ α) (s : σ) : Prop :=
  (∃ N, ∀ n, N ≤ n → P (f n s).2) → ∃ n a t, f n s = (some a, t)

/-- More fuel never changes what was returned. -/
def Stable (f : Nat → Act σ α) : Prop := ∀ n m, n ≤ m → Extends (f n) (f m)

theorem Converges.of_some {f : Nat → Act σ α} {s t : σ} {a : α} {n : Nat}
    (h : f n s = (some a, t)) : Converges P f s := fun _ => ⟨n, a, t, h⟩

/-- Only large fuels count. -/
theorem Converges.of_eventually {f g : Nat → Act σ α} {s t : σ} {N : Nat}
    (h : ∀ n, N ≤ n → f n s = g n t) (hs : Stable g) (hg : Converges P g t) :
    Converges P f s := by
  rintro ⟨M, hM⟩
  have hlarge : ∀ n, max M N ≤ n → P (g n t).2 := by
    intro n hn
    rw [← h n (Nat.le_trans (Nat.le_max_right _ _) hn)]
    exact hM n (Nat.le_trans (Nat.le_max_left _ _) hn)
  obtain ⟨n, a, u, hn⟩ := hg ⟨max M N, hlarge⟩
  refine ⟨max n N, a, u, ?_⟩
  rw [h _ (Nat.le_max_right _ _)]
  exact hs n _ (Nat.le_max_left _ _) t a u hn

/-- Two computations in sequence converge when each does where it is reached. -/
theorem Converges.bind {f : Nat → Act σ α} {g : Nat → α → Act σ β} {s : σ}
    (hs : Stable f) (hb : ∀ n a, Backward P (g n a)) (hf : Converges P f s)
    (hg : ∀ n a t, f n s = (some a, t) → Converges P (fun m => g m a) t)
    (hgs : ∀ a, Stable fun n => g n a) : Converges P (fun n => f n >>= g n) s := by
  rintro ⟨N, hN⟩
  have hN' : ∀ n, N ≤ n → P ((f n >>= g n) s).2 := hN
  have hfirst : ∀ n, N ≤ n → P (f n s).2 := by
    intro n hn
    have h := hN' n hn
    cases hfs : f n s with
    | mk o t =>
        cases o with
        | none => rwa [bind_of_none hfs] at h
        | some a =>
            rw [bind_of_some hfs] at h
            exact hb n a t h
  obtain ⟨n, a, t, hn⟩ := hf ⟨N, hfirst⟩
  have hsecond : ∀ m, max N n ≤ m → P (g m a t).2 := by
    intro m hm
    have h := hN' m (Nat.le_trans (Nat.le_max_left _ _) hm)
    rwa [bind_of_some (hs n m (Nat.le_trans (Nat.le_max_right _ _) hm) s a t hn)] at h
  obtain ⟨m, b, u, hm⟩ := hg n a t hn ⟨max N n, hsecond⟩
  refine ⟨max n m, b, u, ?_⟩
  change (f (max n m) >>= g (max n m)) s = (some b, u)
  rw [bind_of_some (hs n _ (Nat.le_max_left _ _) s a t hn)]
  exact hgs a m _ (Nat.le_max_right _ _) t b u hm

/-- A loop converges when each of its rounds does, from the states `I` the rounds keep. -/
theorem Converges.forEach {I : σ → Prop} {xs : List ι} {f : Nat → ι → Act σ Unit}
    (hs : ∀ x ∈ xs, Stable fun n => f n x) (hb : ∀ n x, Backward P (f n x))
    (hI : ∀ x ∈ xs, ∀ n s t, I s → f n x s = (some (), t) → I t)
    (hf : ∀ x ∈ xs, ∀ s, I s → Converges P (fun n => f n x) s) {s : σ} (h : I s) :
    Converges P (fun n => Act.forEach xs (f n)) s := by
  induction xs generalizing s with
  | nil => exact .of_some (n := 0) rfl
  | cons x xs ih =>
      have hrest : ∀ y ∈ xs, Stable fun n => f n y := fun y hy => hs y (List.mem_cons_of_mem _ hy)
      refine Converges.bind (g := fun n _ => Act.forEach xs (f n)) (hs x List.mem_cons_self)
        (fun n _ => .forEach (hb n)) (hf x List.mem_cons_self s h) (fun n _ t ht => ?_)
        (fun _ n m hnm => .forEach fun y hy => hrest y hy n m hnm)
      exact ih hrest (fun y hy => hI y (List.mem_cons_of_mem _ hy))
        (fun y hy => hf y (List.mem_cons_of_mem _ hy)) (hI x List.mem_cons_self n s t h ht)

end Fuel

end Act
