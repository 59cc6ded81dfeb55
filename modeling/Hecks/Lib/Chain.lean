import Mathlib

/-! Chains of digests: each one is taken over a message of the digest before it and the next
entry. Chains that come to the same digest have the same entries, as long as no two messages of
theirs share a digest and none comes back to the seed. -/
namespace Chain

section

variable {δ ρ μ : Type} (message : δ → ρ → μ) (digest : μ → δ)

/-- The digest after these entries. -/
def run (seed : δ) (rs : List ρ) : δ := rs.foldl (fun d r => digest (message d r)) seed

/-- What is digested on the way. -/
def messages (seed : δ) : List ρ → List μ
  | [] => []
  | r :: rs => message seed r :: messages (digest (message seed r)) rs

theorem run_append (seed : δ) (rs ss : List ρ) :
    run message digest seed (rs ++ ss) =
      run message digest (run message digest seed rs) ss := List.foldl_append

theorem messages_append (seed : δ) (rs ss : List ρ) :
    messages message digest seed (rs ++ ss) =
      messages message digest seed rs ++
        messages message digest (run message digest seed rs) ss := by
  induction rs generalizing seed with
  | nil => rfl
  | cons r rs ih => exact congrArg (message seed r :: ·) (ih _)

theorem run_snoc (seed : δ) (rs : List ρ) (r : ρ) :
    run message digest seed (rs ++ [r]) = digest (message (run message digest seed rs) r) :=
  run_append message digest seed rs [r]

theorem last_message (seed : δ) (rs : List ρ) (r : ρ) :
    message (run message digest seed rs) r ∈ messages message digest seed (rs ++ [r]) := by
  rw [messages_append]
  exact List.mem_append_right _ List.mem_cons_self

variable {message digest}

/-- Digests of one kind: the seed is of it, and so is everything digested. -/
theorem run_kind {Kind : δ → Prop} (kind : ∀ m, Kind (digest m)) {seed : δ} (start : Kind seed)
    (rs : List ρ) : Kind (run message digest seed rs) := by
  induction rs using List.reverseRecOn with
  | nil => exact start
  | append_singleton rs r _ =>
    rw [run_snoc]
    exact kind _

/-- Two chains without collisions that come to the same digest are the same entries. -/
theorem entries_eq {Kind : δ → Prop} (kind : ∀ m, Kind (digest m)) {seed : δ} (start : Kind seed)
    (readable : ∀ d r e s, Kind d → Kind e → message d r = message e s → d = e ∧ r = s)
    {rs ss : List ρ}
    (apart : ∀ x ∈ messages message digest seed rs, ∀ y ∈ messages message digest seed ss,
      digest x = digest y → x = y)
    (away : ∀ x ∈ messages message digest seed rs ++ messages message digest seed ss,
      digest x ≠ seed)
    (same : run message digest seed rs = run message digest seed ss) : rs = ss := by
  induction rs using List.reverseRecOn generalizing ss with
  | nil =>
    rcases List.eq_nil_or_concat' ss with rfl | ⟨ss, s, rfl⟩
    · rfl
    · rw [run_snoc] at same
      exact absurd same.symm
        (away _ (List.mem_append_right _ (last_message message digest seed ss s)))
  | append_singleton rs r ih =>
    rcases List.eq_nil_or_concat' ss with rfl | ⟨ss, s, rfl⟩
    · rw [run_snoc] at same
      exact absurd same (away _ (List.mem_append_left _ (last_message message digest seed rs r)))
    · rw [run_snoc, run_snoc] at same
      have message_eq := apart _ (last_message message digest seed rs r) _
        (last_message message digest seed ss s) same
      obtain ⟨before, rfl⟩ := readable _ _ _ _ (run_kind kind start rs) (run_kind kind start ss)
        message_eq
      rw [messages_append, messages_append] at apart away
      have rest : rs = ss := by
        apply ih
        · intro x memX y memY
          exact apart x (List.mem_append_left _ memX) y (List.mem_append_left _ memY)
        · intro x mem
          rcases List.mem_append.mp mem with mem | mem
          · exact away x (List.mem_append_left _ (List.mem_append_left _ mem))
          · exact away x (List.mem_append_right _ (List.mem_append_left _ mem))
        · exact before
      rw [rest]

end

end Chain
