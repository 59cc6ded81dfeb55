import Hecks.Orchestrate.Simulation

/-! The discipline of the ledgers. The source pushes a compensation before its forward dispatch,
pops it by position when the dispatch is refused, and drains the ledger by position too. The
positions always mean the entry they are meant to. -/
namespace Hecks

open Book

variable {S H : Type}

/-- The entry whose forward dispatch is not answered for yet. -/
def Due.pending : Due → List EntryId
  | .forward _ id | .withdraw _ id => [id]
  | _ => []

section Inversion

variable {tables : Tables} {start : Nat} {b : Book} {m : Mark} {key : SagaKey} {id : EntryId}

/-- A forward dispatch is due right after its entry was recorded. -/
theorem forward_inv (hm : Legal tables start b m) (h : (b.next m).due = .forward key id) :
    ∃ entry, m = .pushed key entry ∧ id = .recorded b.recorded := by
  have hstep := dueStep_of_legal hm
  rw [h] at hstep
  cases hstep with
  | push due => exact ⟨_, rfl, rfl⟩

/-- An entry is due to be taken back right after its forward dispatch was refused. -/
theorem withdraw_inv (hm : Legal tables start b m) (h : (b.next m).due = .withdraw key id) :
    (∃ depth verb args r, m = .called depth verb args (.error r)) ∧ b.due = .forward key id := by
  have hstep := dueStep_of_legal hm
  rw [h] at hstep
  cases hstep with
  | refused due => exact ⟨⟨_, _, _, _, rfl⟩, due⟩

theorem pending_next (hm : Legal tables start b m) :
    ∀ id ∈ (b.next m).due.pending, id ∈ b.due.pending ∨ id = .recorded b.recorded := by
  have hstep := dueStep_of_legal hm
  generalize (b.next m).due = due' at hstep
  intro id hid
  cases hstep with
  | push due => exact .inr (List.mem_singleton.mp hid)
  | refused due =>
      rw [due]
      exact .inl hid
  | _ => cases hid

end Inversion

/-! ### Newest first -/

/-- Between the start of a drain and now: of the entries `held` then, those fired are the newest,
newest first, and the others are still where they were unless their instance is gone. -/
structure NewestFirst (key : SagaKey) (held : List EntryId) (b : Book) : Prop where
  order : b.fired.filter (· ∈ held) ++ ((b.ids key).filter (· ∈ held)).reverse <+: held.reverse
  known : ∀ n, .recorded n ∈ held → n < b.recorded
  home : ∀ k, k ≠ key → ∀ id ∈ b.ids k, id ∉ held
  settled : ∀ id ∈ b.due.pending, id ∉ held

theorem NewestFirst.start {b : Book} (hs : Sound b) (key : SagaKey) (hdue : b.due = .idle) :
    NewestFirst key (b.ids key) b where
  order := by
    have hnone : b.fired.filter (· ∈ b.ids key) = [] := by
      rw [List.filter_eq_nil_iff]
      intro id hid
      simpa using fun hmem => (hs.here key id hmem).1 hid
    have hall : (b.ids key).filter (· ∈ b.ids key) = b.ids key :=
      List.filter_eq_self.mpr fun id hid => by simpa using hid
    rw [hnone, hall, List.nil_append]
  known n hn := hs.fresh n (.of_ids hn)
  home k hk id hid hmem := hk (hs.apart k key id hid hmem)
  settled := by simp [hdue, Due.pending]

section NewestFirst

variable {tables : Tables} {start : Nat} {key : SagaKey} {held : List EntryId} {b : Book}
  {m : Mark}

theorem filter_concat_of_not_mem {ids : List EntryId} {id : EntryId} (h : id ∉ held) :
    (ids ++ [id]).filter (· ∈ held) = ids.filter (· ∈ held) := by
  simp [h]

theorem NewestFirst.fresh (h : NewestFirst key held b) : .recorded b.recorded ∉ held :=
  fun hmem => Nat.lt_irrefl _ (h.known _ hmem)

/-- A line that shortens the fired and held entries of `held` by nothing but a tail, and adds no
entry of `held` anywhere, keeps the order. -/
theorem NewestFirst.next (h : NewestFirst key held b) (hm : Legal tables start b m)
    (horder : (b.next m).fired.filter (· ∈ held) ++
        (((b.next m).ids key).filter (· ∈ held)).reverse <+:
      b.fired.filter (· ∈ held) ++ ((b.ids key).filter (· ∈ held)).reverse)
    (hrec : b.recorded ≤ (b.next m).recorded)
    (hids : ∀ k, ∀ id ∈ (b.next m).ids k, id ∈ b.ids k ∨ id = .recorded b.recorded) :
    NewestFirst key held (b.next m) where
  order := horder.trans h.order
  known n hn := Nat.lt_of_lt_of_le (h.known n hn) hrec
  home k hk id hid := by
    rcases hids k id hid with hid | rfl
    · exact h.home k hk id hid
    · exact h.fresh
  settled id hid := by
    rcases pending_next hm id hid with hid | rfl
    · exact h.settled id hid
    · exact h.fresh

theorem NewestFirst.step (hs : Sound b) (h : NewestFirst key held b)
    (hm : Legal tables start b m) : NewestFirst key held (b.next m) := by
  cases ledgerStep_of_legal hm with
  | still same =>
      obtain ⟨hids, hrec, hf, -, -⟩ := same
      refine h.next hm ?_ (by rw [hrec]) fun k id hid => .inl (hids k ▸ hid)
      rw [hf, hids key]
  | push k hids hrec hf hw hl =>
      refine h.next hm ?_ (by rw [hrec]; exact Nat.le_succ _) fun k' id hid => ?_
      · rw [hf, hids key]
        split
        · rename_i hk
          subst hk
          rw [filter_concat_of_not_mem h.fresh]
        · exact List.prefix_rfl
      · rw [hids k'] at hid
        split at hid
        · rename_i hk
          subst hk
          simpa using hid
        · exact .inl hid
  | withdraw k id hdue hids hrec hf hw hl =>
      -- the entry taken back was recorded after the drain started
      have hid : id ∉ held := h.settled id (by simp [hdue, Due.pending])
      have hlast : (b.ids k).getLast? = some id := by
        have hd := hs.due
        rw [DueSound, hdue] at hd
        exact hd
      obtain ⟨rest, hrest⟩ := List.getLast?_eq_some_iff.mp hlast
      rw [hrest, List.dropLast_concat] at hids
      refine h.next hm ?_ (by rw [hrec]) fun k' x hx => ?_
      · rw [hf, hids key]
        split
        · rename_i hk
          subst hk
          rw [hrest, filter_concat_of_not_mem hid]
        · exact List.prefix_rfl
      · rw [hids k'] at hx
        split at hx
        · rename_i hk
          subst hk
          exact .inl (by simp [hrest, hx])
        · exact .inl hx
  | fire k rest id hrest hids hrec hf hw hl =>
      refine h.next hm ?_ (by rw [hrec]) fun k' x hx => ?_
      · rw [hf, hids key]
        split
        · rename_i hk
          subst hk
          -- the fired entry moves from the end of the ledger to the end of the fired ones
          rw [hrest]
          by_cases hid : id ∈ held
          · simp [hid]
          · rw [filter_concat_of_not_mem hid, filter_concat_of_not_mem hid]
        · rename_i hk
          have hid : id ∉ held := h.home k (Ne.symm hk) id (by simp [hrest])
          rw [filter_concat_of_not_mem hid]
      · rw [hids k'] at hx
        split at hx
        · rename_i hk
          subst hk
          exact .inl (by simp [hrest, hx])
        · exact .inl hx
  | lose k hids hrec hf hw hl =>
      refine h.next hm ?_ (by rw [hrec]) fun k' x hx => ?_
      · rw [hf, hids key]
        split
        · simp
        · exact List.prefix_rfl
      · rw [hids k'] at hx
        split at hx
        · cases hx
        · exact .inl hx

end NewestFirst

section History

variable {tables : Tables} {start : Nat} {b : Book} {history : List Mark} {key : SagaKey}

theorem newestFirst_of_runs {mid : List Mark} (hs : Sound b)
    (h : (bookkeeping tables start).Runs b (.draining key :: mid)) :
    NewestFirst key (b.ids key) ((bookkeeping tables start).replay b (.draining key :: mid)) := by
  have hdue : b.due = .idle := h [] _ mid rfl
  have hinv := h.invariant (I := fun t => Sound t ∧ NewestFirst key (b.ids key) t)
    ⟨hs, .start hs key hdue⟩ fun t m ht hm => ⟨ht.1.step hm, ht.2.step ht.1 hm⟩
  exact hinv.2

/-- The entry of a refused forward dispatch: about to be taken back, or taken back. -/
def Revoked (id : EntryId) (b : Book) : Prop := id ∈ b.withdrawn ∨ ∃ key, b.due = .withdraw key id

theorem Revoked.step {id : EntryId} {m : Mark} (hs : Sound b) (h : Revoked id b)
    (hm : Legal tables start b m) : Revoked id (b.next m) := by
  rcases h with hmem | ⟨k, hdue⟩
  · refine .inl ?_
    cases ledgerStep_of_legal hm with
    | still same => rw [same.withdrawn]; exact hmem
    | push _ _ _ _ hw => rw [hw]; exact hmem
    | withdraw _ _ _ _ _ _ hw => rw [hw]; exact List.mem_append_left _ hmem
    | fire _ _ _ _ _ _ _ hw => rw [hw]; exact hmem
    | lose _ _ _ _ hw => rw [hw]; exact hmem
  · -- nothing but the pop is admitted
    have hlast := hs.due
    rw [DueSound, hdue] at hlast
    have hstep := dueStep_of_legal hm
    generalize (b.next m).due = due' at hstep
    cases hstep with
    | withdraw due =>
        cases hdue.symm.trans due
        refine .inl (List.mem_append_right _ ?_)
        rw [newest, hlast]
        exact List.mem_singleton_self id
    | _ => simp_all

theorem Revoked.not_fired {id : EntryId} (hs : Sound b) (h : Revoked id b) : id ∉ b.fired := by
  rcases h with hmem | ⟨k, hdue⟩
  · exact fun hf => hs.never id hf hmem
  · have hlast := hs.due
    rw [DueSound, hdue] at hlast
    exact (hs.here k id (List.mem_of_getLast? hlast)).1

/-- Before an entry is taken back there is its own refused dispatch, and before that its own
push: nothing happened in between. -/
theorem withdraw_at_end {id : EntryId} (hidle : b.due = .idle)
    (h : (bookkeeping tables start).Runs b history)
    (hdue : ((bookkeeping tables start).replay b history).due = .withdraw key id) :
    ∃ earlier entry depth verb args r,
      history = earlier ++ [.pushed key entry, .called depth verb args (.error r)] := by
  rcases List.eq_nil_or_concat' history with rfl | ⟨before, m, rfl⟩
  · exact absurd (hidle.symm.trans hdue) (by simp)
  rw [Machine.replay_append] at hdue
  obtain ⟨⟨depth, verb, args, r, rfl⟩, hforward⟩ := withdraw_inv h.legal hdue
  rcases List.eq_nil_or_concat' before with rfl | ⟨earlier, m, rfl⟩
  · exact absurd (hidle.symm.trans hforward) (by simp)
  rw [Machine.replay_append] at hforward
  obtain ⟨entry, rfl, -⟩ := forward_inv h.left.legal hforward
  exact ⟨earlier, entry, depth, verb, args, r, by simp⟩

/-- A push, a refused dispatch and the pop leave every ledger as it was. -/
theorem ledger_pushed_unrecorded (hlive : (b.live key).isSome) (entry : CompletedCompensation)
    (depth : Nat) (verb : String) (args : Json) (r : Refusal) :
    (((b.next (.pushed key entry)).next (.called depth verb args (.error r))).next
      (.unrecorded key)).ledger = b.ledger := by
  have hpush := ledger_push hlive (.recorded b.recorded, entry)
  funext k
  change ((Book.next _ _).popLive key).ledger k = _
  rw [ledger_popLive]
  split
  · rename_i hk
    subst hk
    exact (congrArg List.dropLast (hpush k)).trans (by simp)
  · rename_i hk
    exact (hpush k).trans (if_neg hk)

end History

/-- What holds of the ledgers over the history of a run. -/
structure LedgerDiscipline (env : Env S H) (start : Nat) (c : Cascade S H)
    (history : List Mark) : Prop where
  /-- Every entry is fired at most once. -/
  once : (bookOf env start c history).fired.Nodup
  /-- Of the entries on a ledger when its drain starts, those fired so far are the newest, newest
  first. -/
  newestFirst : ∀ before key mid after, history = before ++ .draining key :: (mid ++ after) →
    (bookOf env start c (before ++ .draining key :: mid)).fired.filter
        (· ∈ (bookOf env start c before).ids key) <+:
      ((bookOf env start c before).ids key).reverse
  /-- The forward dispatch of an entry is the call right after its push, and the entry of a
  refused one is never fired. -/
  earned : ∀ before key entry m after, history = before ++ .pushed key entry :: m :: after →
    ∃ depth verb args answer, m = .called depth verb args answer ∧
      ∀ r, answer = .error r →
        .recorded (bookOf env start c before).recorded ∉ (bookOf env start c history).fired
  /-- The pop comes right after the push and the refused dispatch of the same call, and leaves
  every ledger as it was before the push. -/
  ownPop : ∀ before key after, history = before ++ .unrecorded key :: after →
    ∃ earlier entry depth verb args r,
      before = earlier ++ [.pushed key entry, .called depth verb args (.error r)] ∧
      (bookOf env start c (before ++ [.unrecorded key])).ledger =
        (bookOf env start c earlier).ledger

section Tracks

variable {env : Env S H} {start : Nat} {c d : Cascade S H} {history : List Mark}

theorem Tracks.sound_before (ht : Tracks env start c history d) {before after : List Mark}
    (h : history = before ++ after) : Sound (bookOf env start c before) := by
  subst h
  exact sound_of_runs ht.runs.left

theorem Tracks.earned (ht : Tracks env start c history d) {before after : List Mark}
    {key : SagaKey} {entry : CompletedCompensation} {m : Mark}
    (h : history = before ++ .pushed key entry :: m :: after) :
    ∃ depth verb args answer, m = .called depth verb args answer ∧
      ∀ r, answer = .error r →
        .recorded (bookOf env start c before).recorded ∉ (bookOf env start c history).fired := by
  have hs := (ht.sound_before h).step (ht.runs before _ _ h)
  have hruns : (bookkeeping env.tables start).Runs (bookOf env start c before)
      ([.pushed key entry, m] ++ after) := (h ▸ ht.runs :).right
  have hm : Legal env.tables start ((bookOf env start c before).next (.pushed key entry)) m :=
    hruns [.pushed key entry] m after rfl
  have hstep := dueStep_of_legal hm
  have hdue : ((bookOf env start c before).next (.pushed key entry)).due =
      .forward key (.recorded (bookOf env start c before).recorded) := rfl
  generalize hnext : (((bookOf env start c before).next (.pushed key entry)).next m).due = due'
    at hstep
  cases hstep with
  | accepted due => exact ⟨_, _, _, _, rfl, fun r hr => by cases hr⟩
  | refused due =>
      refine ⟨_, _, _, _, rfl, fun r _ => ?_⟩
      cases hdue.symm.trans due
      have hrest := hruns.right.invariant
        (I := fun t => Sound t ∧ Revoked (.recorded (bookOf env start c before).recorded) t)
        ⟨hs.step hm, .inr ⟨key, hnext⟩⟩ fun t m ht hm => ⟨ht.1.step hm, ht.2.step ht.1 hm⟩
      rw [h, bookOf_append]
      exact hrest.2.not_fired hrest.1
  | _ => simp_all

theorem Tracks.ownPop (ht : Tracks env start c history d) {before after : List Mark}
    {key : SagaKey} (h : history = before ++ .unrecorded key :: after) :
    ∃ earlier entry depth verb args r,
      before = earlier ++ [.pushed key entry, .called depth verb args (.error r)] ∧
      (bookOf env start c (before ++ [.unrecorded key])).ledger =
        (bookOf env start c earlier).ledger := by
  obtain ⟨id, hdue⟩ := ht.runs before _ after h
  subst h
  obtain ⟨earlier, entry, depth, verb, args, r, rfl⟩ :=
    withdraw_at_end (b := Book.start c.sagas start) rfl ht.runs.left hdue
  have hlive : ((bookOf env start c earlier).live key).isSome :=
    (ht.runs earlier (.pushed key entry)
      (.called depth verb args (.error r) :: .unrecorded key :: after) (by simp)).2
  refine ⟨earlier, entry, depth, verb, args, r, rfl, ?_⟩
  rw [bookOf_append, bookOf_append]
  exact ledger_pushed_unrecorded hlive entry depth verb args r

end Tracks

/-- The ledgers keep their discipline over every run, wherever its fuel ends, and are the ledgers
the run left. -/
theorem run_ledger_discipline (env : Env S H) (fuel : Nat) (verb : String) (args : Json)
    (role actor : Option String) (stamp : Option (List (String × String))) (depth : Nat)
    (c : Cascade S H) :
    ∃ history, (run env fuel verb args role actor stamp depth c).2.journal =
        c.journal ++ history ∧
      (∀ key, (run env fuel verb args role actor stamp depth c).2.sagas.lookup key =
        ((bookOf env depth c history).live key).map Live.inst) ∧
      LedgerDiscipline env depth c history := by
  obtain ⟨history, ht⟩ := run_kept env fuel verb args role actor stamp depth c
  refine ⟨history, ht.journal, ht.sagas, ht.sound.once, ?_, ?_, ?_⟩
  · intro before key mid after h
    have hruns : (bookkeeping env.tables depth).Runs (bookOf env depth c before)
        (.draining key :: mid ++ after) := (h ▸ ht.runs :).right
    have hnewest := newestFirst_of_runs (ht.sound_before h) hruns.left
    rw [bookOf_append]
    exact (List.prefix_append _ _).trans hnewest.order
  · exact fun before key entry m after h => ht.earned h
  · exact fun before key after h => ht.ownPop h

end Hecks
