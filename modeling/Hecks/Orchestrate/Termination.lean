import Mathlib
import Hecks.Orchestrate.Compensation

/-! When a run ends. The depth ceiling bounds the nesting of a cascade without root policies, but
the drain of a ledger re-reads it every round, and a compensation's own events may record new
entries on it. The run ends exactly when that happens only finitely often. -/
namespace Hecks

open Cascade

variable {S H : Type}

/-! ### Families of computations in fuel -/

/-- From the states in `I` some fuel is enough, as long as `P` holds along the way. -/
structure Eventually (I P : Cascade S H → Prop) {α : Type} (f : Nat → Job S H α) : Prop where
  stable : Act.Stable f
  grows : ∀ n, GrowsAlong (f n)
  converges : ∀ s, I s → Act.Converges P f s

section Eventually

variable {I P : Cascade S H → Prop} (hI : ∀ s t, Grows s t → I s → I t)
  (hP : ∀ s t, Grows s t → P t → P s)

theorem eventually_of_loud {α : Type} {f : Job S H α} (hf : Loud f) :
    Eventually I P fun _ => f where
  stable _ _ _ := .refl f
  grows _ := hf.growsAlong
  converges s _ := by
    obtain ⟨a, t, ht, -⟩ := hf s
    exact .of_some (n := 0) ht

include hP in
theorem GrowsAlong.backward {α : Type} {f : Job S H α} (hf : GrowsAlong f) : Act.Backward P f :=
  fun s h => hP s _ (hf s) h

include hI hP in
theorem Eventually.bind {α β : Type} {f : Nat → Job S H α} {g : Nat → α → Job S H β}
    (hf : Eventually I P f) (hg : ∀ a, Eventually I P fun n => g n a) :
    Eventually I P fun n => f n >>= g n where
  stable n m hnm := .bind (hf.stable n m hnm) fun a => (hg a).stable n m hnm
  grows n := (hf.grows n).bind fun a => (hg a).grows n
  converges s hs := by
    refine .bind hf.stable (fun n a => ((hg a).grows n).backward hP) (hf.converges s hs) ?_
      fun a => (hg a).stable
    intro n a t ht
    have hst := hf.grows n s
    rw [ht] at hst
    exact (hg a).converges t (hI s t hst hs)

include hI hP in
theorem congruence_eventually :
    Congruence (S := S) (H := H) (ι := Nat) fun f => Eventually I P f :=
  ⟨fun _ hf => eventually_of_loud hf.loud, fun hf hg => hf.bind hI hP hg⟩

end Eventually

/-! ### The ledgers over a stretch of a run -/

section Stretch

variable {tables : Tables} {start : Nat} {b : Book} {m : Mark}

theorem refills_le_next (b : Book) (m : Mark) : b.refills ≤ (b.next m).refills := by
  cases m with
  | pushed k entry =>
      change _ ≤ if k ∈ b.drains then b.refills + 1 else b.refills
      split
      · exact Nat.le_succ _
      · exact Nat.le_refl _
  | _ => exact Nat.le_refl _

theorem refills_le_replay (b : Book) (history : List Mark) :
    b.refills ≤ ((bookkeeping tables start).replay b history).refills := by
  induction history generalizing b with
  | nil => exact Nat.le_refl _
  | cons m history ih => exact Nat.le_trans (refills_le_next b m) (ih (b.next m))

/-- A ledger gets longer only where an entry is recorded on it. -/
theorem length_ids_next (hm : Legal tables start b m) (key : SagaKey) :
    ((b.next m).ids key).length ≤ (b.ids key).length ∨
      ∃ entry, m = .pushed key entry ∧
        ((b.next m).ids key).length = (b.ids key).length + 1 := by
  cases m with
  | pushed k entry =>
      have hids := Book.ids_push hm.2 (.recorded b.recorded, entry) key
      by_cases hk : key = k
      · subst hk
        rw [if_pos rfl] at hids
        exact .inr ⟨entry, rfl, (congrArg List.length hids).trans (by simp)⟩
      · rw [if_neg hk] at hids
        exact .inl (Nat.le_of_eq (congrArg List.length hids))
  | _ =>
      refine .inl ?_
      cases ledgerStep_of_legal hm with
      | still same => rw [same.ids]
      | push k ids recorded =>
          exact absurd recorded (by simp [Book.next, Book.setLive, Book.updateLive, Book.popLive])
      | withdraw k id due ids =>
          rw [ids]
          split
          · rename_i hk
            rw [hk, List.length_dropLast]
            exact Nat.sub_le _ _
          · exact Nat.le_refl _
      | fire k rest id held ids =>
          rw [ids]
          split
          · rename_i hk
            rw [hk, held, List.length_append]
            exact Nat.le_add_right _ _
          · exact Nat.le_refl _
      | lose k ids =>
          rw [ids]
          split
          · exact Nat.zero_le _
          · exact Nat.le_refl _

/-- A stretch of a run read in its own book, `rel`, and in the book of the whole run, `whole`,
where the drains open before it lie below its own. They stay open all along, so a ledger among
them grows by no more than its refills. -/
theorem replay_over (key : SagaKey) {rel whole : Book} {base : List SagaKey} {history : List Mark}
    (h : (bookkeeping tables start).Runs rel history) (hd : whole.drains = rel.drains ++ base)
    (start' : Nat) :
    ((bookkeeping tables start').replay whole history).drains =
        ((bookkeeping tables start).replay rel history).drains ++ base ∧
      (key ∈ base →
        (((bookkeeping tables start).replay rel history).ids key).length + whole.refills ≤
          (rel.ids key).length + ((bookkeeping tables start').replay whole history).refills) := by
  induction history generalizing rel whole with
  | nil => exact ⟨hd, fun _ => Nat.le_refl _⟩
  | cons m history ih =>
      have hm : Legal tables start rel m := h.head
      have hdrains : (whole.next m).drains = (rel.next m).drains ++ base := by
        rcases drains_next m with ⟨k, rfl⟩ | ⟨k, rfl⟩ | hsame
        · exact congrArg (k :: ·) hd
        · obtain ⟨ds, hds⟩ := List.head?_eq_some_iff.mp hm.2.1
          change whole.drains.tail = rel.drains.tail ++ base
          rw [hd, hds]
          rfl
        · rw [hsame, hsame, hd]
      obtain ⟨hend, hgrow⟩ := ih h.tail hdrains
      refine ⟨hend, fun hkey => ?_⟩
      have hstep : ((rel.next m).ids key).length + whole.refills ≤
          (rel.ids key).length + (whole.next m).refills := by
        rcases length_ids_next hm key with hle | ⟨entry, rfl, hlen⟩
        · exact Nat.add_le_add hle (refills_le_next whole m)
        · have hrefill : (whole.next (.pushed key entry)).refills = whole.refills + 1 :=
            if_pos (by rw [hd]; exact List.mem_append_right _ hkey)
          omega
      have hrest : (((bookkeeping tables start).replay (rel.next m) history).ids key).length +
          (whole.next m).refills ≤ ((rel.next m).ids key).length +
            ((bookkeeping tables start').replay (whole.next m) history).refills := hgrow hkey
      change (((bookkeeping tables start).replay (rel.next m) history).ids key).length + _ ≤
        _ + ((bookkeeping tables start').replay (whole.next m) history).refills
      omega

end Stretch

/-! ### One round of a drain -/

/-- How many entries are on the ledger under a key. -/
def ledgerSize (c : Cascade S H) (key : SagaKey) : Nat :=
  ((c.sagas.lookup key).map (·.completedCompensations.length)).getD 0

section Round

variable (env : Env S H) (start : Nat) (c₀ : Cascade S H)

/-- The book of everything since `c₀`. -/
def bookSince (c : Cascade S H) : Book := bookOf env start c₀ (c.journal.drop c₀.journal.length)

/-- The cascade goes on from `c₀`. -/
def Since (c : Cascade S H) : Prop := c₀.journal <+: c.journal

variable {env start c₀} {s t u : Cascade S H} {key : SagaKey}

theorem Since.grows (h : Since c₀ s) (hst : Grows s t) : Since c₀ t := h.trans hst.journal

theorem bookSince_append (h : Since c₀ s) {history : List Mark}
    (ht : t.journal = s.journal ++ history) :
    bookSince env start c₀ t =
      (bookkeeping env.tables start).replay (bookSince env start c₀ s) history := by
  rw [bookSince, ht, List.drop_append_of_le_length h.length_le, bookOf_append]
  rfl

theorem refills_le_of_grows (hst : Grows s t) :
    (bookSince env start c₀ s).refills ≤ (bookSince env start c₀ t).refills := by
  obtain ⟨history, ht⟩ := hst.journal.drop c₀.journal.length
  rw [bookSince, bookSince, ← ht, bookOf_append]
  exact refills_le_replay _ _

variable (env start c₀ key) in
/-- What firing an entry may do to the ledger being drained: the open drains are the same after
it, and the ledger grew by no more than its refills. -/
structure Round (s t : Cascade S H) : Prop where
  since : Since c₀ t
  drains : (bookSince env start c₀ t).drains = (bookSince env start c₀ s).drains
  size : key ∈ (bookSince env start c₀ s).drains →
    ledgerSize t key + (bookSince env start c₀ s).refills ≤
      ledgerSize s key + (bookSince env start c₀ t).refills

theorem Round.refl (h : Since c₀ s) : Round env start c₀ key s s :=
  ⟨h, rfl, fun _ => Nat.le_refl _⟩

theorem Round.trans (h : Round env start c₀ key s t) (h' : Round env start c₀ key t u) :
    Round env start c₀ key s u := by
  refine ⟨h'.since, h'.drains.trans h.drains, fun hkey => ?_⟩
  have hst := h.size hkey
  have htu := h'.size (by rw [h.drains]; exact hkey)
  omega

/-- A line about no ledger and no drain. -/
theorem Round.noted (h : Since c₀ s) {m : Mark}
    (hm : ∀ b : Book, (b.next m).drains = b.drains ∧ (b.next m).refills = b.refills) :
    Round env start c₀ key s (s.noted m) := by
  have hbook : bookSince env start c₀ (s.noted m) =
      (bookkeeping env.tables start).replay (bookSince env start c₀ s) [m] := bookSince_append h rfl
  change _ = (bookSince env start c₀ s).next m at hbook
  refine ⟨h.trans (List.prefix_append _ _), ?_, fun _ => ?_⟩
  · rw [hbook, (hm _).1]
  · rw [hbook, (hm _).2]
    exact Nat.le_refl _

theorem Tracks.ledgerSize {d : Nat} {history : List Mark} (ht : Tracks env d s history t)
    (key : SagaKey) : ledgerSize t key = ((bookOf env d s history).ids key).length := by
  rw [Hecks.ledgerSize, ht.sagas key, Book.ids, Book.ledger]
  cases (bookOf env d s history).live key with
  | none => rfl
  | some l => simp [Live.inst]

/-- A returned run is a round, whatever it did inside. -/
theorem Round.run (h : Since c₀ s) {fuel : Nat} {verb : String} {args : Json}
    {role actor : Option String} {stamp : Option (List (String × String))} {depth : Nat}
    {r : Except Refusal Unit}
    (hrun : run env fuel verb args role actor stamp depth s = (some r, t)) :
    Round env start c₀ key s t := by
  obtain ⟨history, ht, -, hclosed⟩ := run_settled hrun
  have hbase : (bookSince env start c₀ s).drains =
      (Book.start s.sagas depth).drains ++ (bookSince env start c₀ s).drains := rfl
  have hover := replay_over key ht.runs hbase start
  rw [← bookSince_append h ht.journal] at hover
  change _ = (bookOf env depth s history).drains ++ _ ∧ _ at hover
  rw [hclosed, List.nil_append] at hover
  refine ⟨h.trans ⟨history, ht.journal.symm⟩, hover.1, fun hkey => ?_⟩
  have hstart : Hecks.ledgerSize s key = ((Book.start s.sagas depth).ids key).length :=
    (tracks_start : Tracks env depth s [] s).ledgerSize key
  rw [ht.ledgerSize key, hstart]
  exact hover.2 hkey

theorem Round.logSaga (h : Since c₀ s) (record : Json) :
    Round env start c₀ key s { s with sagaLog := s.sagaLog ++ [record] } :=
  ⟨h, rfl, fun _ => Nat.le_refl _⟩

/-- A step that is a round from wherever it starts extends a round. -/
theorem triple_round {α : Type} {f : Job S H α}
    (hf : ∀ c a d, Since c₀ c → f c = (some a, d) → Round env start c₀ key c d) :
    Act.Triple (Round env start c₀ key s) f (fun _ => Round env start c₀ key s) fun _ => True :=
  fun c hc => ⟨fun a d hd => hc.trans (hf c a d hc.since hd), fun _ _ => trivial⟩

theorem triple_roundLog (record : Json) :
    Act.Triple (Round env start c₀ key s) (logSaga record) (fun _ => Round env start c₀ key s)
      fun _ => True := by
  refine triple_round fun c a d hc hd => ?_
  cases hd
  exact .logSaga hc record

theorem triple_roundNote {m : Mark}
    (hm : ∀ b : Book, (b.next m).drains = b.drains ∧ (b.next m).refills = b.refills) :
    Act.Triple (Round env start c₀ key s) (note m) (fun _ => Round env start c₀ key s)
      fun _ => True := by
  refine triple_round fun c a d hc hd => ?_
  cases hd
  exact .noted hc hm

theorem triple_roundDelivery (fuel : Nat) (leg : SagaLeg) (entry : CompletedCompensation)
    (depth : Nat) :
    Act.Triple (Round env start c₀ key s)
      (deliverDerivedCompensation (run env fuel) leg entry depth)
      (fun _ => Round env start c₀ key s) fun _ => True := by
  unfold deliverDerivedCompensation
  split
  · exact .bind (triple_roundLog _) fun _ => triple_roundNote fun _ => ⟨rfl, rfl⟩
  · refine .bind (triple_roundNote fun _ => ⟨rfl, rfl⟩) fun _ => ?_
    refine .bind (triple_round fun c r d hc hd => .run hc hd) fun outcome => ?_
    split
    · exact triple_roundLog _
    · exact .bind (triple_roundLog _) fun _ => triple_roundNote fun _ => ⟨rfl, rfl⟩

/-- The pop of a round: one entry less, nothing else that counts. -/
theorem popLedger_spec (env : Env S H) (start : Nat) (h : Since c₀ s) (key : SagaKey) :
    popLedger key s = (some none, s) ∨
      ∃ entry t, popLedger key s = (some (some entry), t) ∧ Since c₀ t ∧
        (bookSince env start c₀ t).drains = (bookSince env start c₀ s).drains ∧
        (bookSince env start c₀ t).refills = (bookSince env start c₀ s).refills ∧
        ledgerSize t key + 1 = ledgerSize s key := by
  cases hl : s.sagas.lookup key with
  | none => exact .inl (by simp only [popLedger, hl])
  | some inst =>
      rcases List.eq_nil_or_concat' inst.completedCompensations with hnil | ⟨rest, entry, hrest⟩
      · exact .inl (by simp only [popLedger, hl, hnil, List.getLast?_nil])
      · have hpop : popLedger key s = (some (some entry),
            s.withSaga key { inst with completedCompensations := rest } (.fired key entry)) := by
          simp only [popLedger, hl, hrest, List.getLast?_concat, List.dropLast_concat]
        have hbook : bookSince env start c₀
            (s.withSaga key { inst with completedCompensations := rest } (.fired key entry)) =
              (bookkeeping env.tables start).replay (bookSince env start c₀ s)
                [.fired key entry] := bookSince_append h rfl
        refine .inr ⟨entry, _, hpop, h.trans (List.prefix_append _ _), ?_, ?_, ?_⟩
        · rw [hbook]
          rfl
        · rw [hbook]
          rfl
        · simp [ledgerSize, withSaga, noted, hl, hrest]

end Round

/-! ### The drain loop -/

section Drain

variable (env : Env S H) (start : Nat) (c₀ : Cascade S H) (bound : Nat)

/-- The refills since `c₀` stay within the bound. -/
def Bounded (c : Cascade S H) : Prop := (bookSince env start c₀ c).refills ≤ bound

/-- The drain with the fuel of its run, `rounds` rounds in. -/
def draining (leg : SagaLeg) (depth rounds : Nat) (n : Nat) : Job S H Unit :=
  drainLedger (run env n) leg depth (n - rounds)

variable {env start c₀ bound} {leg : SagaLeg} {depth : Nat}

theorem draining_stable (rounds : Nat) : Act.Stable (draining env leg depth rounds) := by
  intro n m hnm
  refine congruence_extends.drainLedger .stop env (fun i => run env (cond i m n)) ?_ leg
    (Nat.sub_le_sub_right hnm rounds)
  exact fun verb args role actor stamp d _ => run_stable env verb args role actor stamp d n m hnm

theorem draining_grows (rounds n : Nat) : GrowsAlong (draining env leg depth rounds n) := by
  refine congruence_growsAlong.drainLedger (fun _ c => .refl c) env (fun _ => run env n) ?_ leg
    (le_refl (n - rounds))
  exact fun verb args role actor stamp d _ => run_grows env verb args role actor stamp d n

/-- One round of the drain. -/
theorem draining_succ (leg : SagaLeg) (depth : Nat) {rounds n : Nat} (h : rounds < n) :
    draining env leg depth rounds n =
      (popLedger leg.key >>= fun popped =>
        match popped with
        | none => note (.drained leg.key)
        | some entry =>
            deliverDerivedCompensation (run env n) leg entry depth >>= fun _ =>
              draining env leg depth (rounds + 1) n) := by
  obtain ⟨k, rfl⟩ := Nat.exists_eq_add_of_lt h
  rw [draining, show rounds + k + 1 - rounds = k + 1 by omega]
  simp only [draining, show rounds + k + 1 - (rounds + 1) = k by omega]
  rfl

theorem Bounded.of_grows {s t : Cascade S H} (hst : Grows s t)
    (h : Bounded env start c₀ bound t) : Bounded env start c₀ bound s :=
  Nat.le_trans (refills_le_of_grows hst) h

/-- The drain ends if its deliveries do: every round takes an entry off the ledger, and what the
round puts back is paid for by the bound. -/
theorem draining_converges
    (hdeliver : ∀ entry, Eventually (Since c₀) (Bounded env start c₀ bound) fun n =>
      deliverDerivedCompensation (run env n) leg entry depth)
    (k rounds : Nat) {s : Cascade S H} (hs : Since c₀ s)
    (hopen : leg.key ∈ (bookSince env start c₀ s).drains)
    (hk : ledgerSize s leg.key + (bound - (bookSince env start c₀ s).refills) ≤ k) :
    Act.Converges (Bounded env start c₀ bound) (draining env leg depth rounds) s := by
  induction k using Nat.strong_induction_on generalizing rounds s with
  | _ k ih =>
      rcases popLedger_spec env start hs leg.key with hpop | ⟨entry, t, hpop, ht, hds, hrs, hsize⟩
      · refine .of_some (n := rounds + 1) (a := ()) (t := s.noted (.drained leg.key)) ?_
        rw [draining_succ leg depth (Nat.lt_succ_self rounds), Act.bind_of_some hpop]
        rfl
      have hround : ∀ n, rounds < n → draining env leg depth rounds n s =
          (deliverDerivedCompensation (run env n) leg entry depth >>= fun _ =>
            draining env leg depth (rounds + 1) n) t := by
        intro n hn
        rw [draining_succ leg depth hn, Act.bind_of_some hpop]
      refine .of_eventually (N := rounds + 1) hround (fun n m hnm =>
        .bind ((hdeliver entry).stable n m hnm) fun _ => draining_stable _ n m hnm) ?_
      refine .bind (hdeliver entry).stable (fun n _ => (draining_grows _ n).backward fun _ _ =>
        Bounded.of_grows) ((hdeliver entry).converges t ht) ?_ fun _ => draining_stable _
      intro n _ u hu
      have hround : Round env start c₀ leg.key t u :=
        (triple_roundDelivery n leg entry depth t (.refl ht)).1 _ u hu
      by_cases hbound : Bounded env start c₀ bound u
      · have hgrow := (hdeliver entry).grows n t
        rw [hu] at hgrow
        have hmono : (bookSince env start c₀ t).refills ≤ (bookSince env start c₀ u).refills :=
          refills_le_of_grows hgrow
        have hpaid := hround.size (by rw [hds]; exact hopen)
        have hdrains := hround.drains.trans hds
        unfold Bounded at hbound
        refine ih (k - 1) (by omega) _ hround.since (by rw [hdrains]; exact hopen) ?_
        omega
      · rintro ⟨N, hN⟩
        exact absurd (.of_grows (draining_grows _ N u) (hN N (Nat.le_refl N))) hbound

theorem eventually_drain
    (hdeliver : ∀ entry, Eventually (Since c₀) (Bounded env start c₀ bound) fun n =>
      deliverDerivedCompensation (run env n) leg entry depth) :
    Eventually (Since c₀) (Bounded env start c₀ bound) fun n =>
      drain (run env n) n leg depth where
  stable n m hnm := .bind (.refl _) fun _ => draining_stable 0 n m hnm
  grows n := (loud_note _).growsAlong.bind fun _ => draining_grows 0 n
  converges s hs := by
    have hgrow : Grows s (s.noted (.draining leg.key)) := grows_noted _ _
    have hbook : bookSince env start c₀ (s.noted (.draining leg.key)) =
        (bookkeeping env.tables start).replay (bookSince env start c₀ s) [.draining leg.key] :=
      bookSince_append hs rfl
    have hnote : ∀ n, 0 ≤ n → drain (run env n) n leg depth s =
        draining env leg depth 0 n (s.noted (.draining leg.key)) := fun _ _ => rfl
    refine .of_eventually hnote (draining_stable 0) ?_
    refine draining_converges hdeliver _ 0 (hs.grows hgrow) ?_ (Nat.le_refl _)
    rw [hbook]
    exact List.mem_cons_self

end Drain

/-! ### The run -/

theorem Tables.Rootless.reenters {tables : Tables} (h : tables.Rootless) {depth d : Nat}
    (hd : Reenters tables depth d) : depth < maxReactionDepth ∧ d = depth + 1 := by
  rcases hd with ⟨policy, hpolicy, hw, rfl⟩ | ⟨hw, rfl⟩
  · rw [h policy hpolicy] at hw ⊢
    exact ⟨by simpa using hw, rfl⟩
  · exact ⟨Nat.not_le.mp hw, rfl⟩

section Run

variable {env : Env S H} {start : Nat} {c₀ : Cascade S H} {bound : Nat}

/-- One fuel more: a family converges if it does from its second member on. -/
theorem eventually_run_of_body {verb : String} {args : Json} {role actor : Option String}
    {stamp : Option (List (String × String))} {depth : Nat}
    (h : Eventually (Since c₀) (Bounded env start c₀ bound) fun n =>
      runBody env (run env n) n verb args role actor stamp depth) :
    Eventually (Since c₀) (Bounded env start c₀ bound) fun n =>
      run env n verb args role actor stamp depth where
  stable := run_stable env verb args role actor stamp depth
  grows := run_grows env verb args role actor stamp depth
  converges s hs := by
    rintro ⟨N, hN⟩
    obtain ⟨n, r, t, hn⟩ := h.converges s hs
      ⟨N, fun n hn => hN (n + 1) (Nat.le_trans hn (Nat.le_succ n))⟩
    exact ⟨n + 1, r, t, hn⟩

/-- By induction on how far the depth is from the ceiling. -/
theorem eventually_run (hroot : env.tables.Rootless) (verb : String) (args : Json)
    (role actor : Option String) (stamp : Option (List (String × String))) (depth : Nat) :
    Eventually (Since c₀) (Bounded env start c₀ bound) fun n =>
      run env n verb args role actor stamp depth := by
  induction hk : maxReactionDepth - depth using Nat.strong_induction_on
    generalizing verb args role actor stamp depth with
  | _ k ih =>
      have hΦ : Congruence (S := S) (H := H) (ι := Nat) fun f =>
          Eventually (Since c₀) (Bounded env start c₀ bound) f :=
        congruence_eventually (fun _ _ hst hs => hs.grows hst) fun _ _ => Bounded.of_grows
      have hself : ∀ verb args role actor stamp d, Reenters env.tables depth d →
          Eventually (Since c₀) (Bounded env start c₀ bound) fun n =>
            run env n verb args role actor stamp d := by
        intro verb args role actor stamp d hd
        obtain ⟨hlt, rfl⟩ := hroot.reenters hd
        exact ih (maxReactionDepth - (depth + 1)) (by omega) verb args role actor stamp _ rfl
      have hdrain : ∀ leg, Eventually (Since c₀) (Bounded env start c₀ bound) fun n =>
          drain (run env n) n leg depth := fun leg =>
        eventually_drain fun entry => hΦ.deliverDerivedCompensation env hself leg entry
      exact eventually_run_of_body
        (hΦ.runBody env hself hdrain (fun _ hf => eventually_of_loud hf) verb args role actor stamp)

end Run

/-- How often a compensation was recorded, since `c`, on a ledger that was being drained. -/
def refillsSince (env : Env S H) (depth : Nat) (c d : Cascade S H) : Nat :=
  (bookSince env depth c d).refills

/-- A cascade without root policies ends exactly when only finitely many compensations are
recorded on a ledger that an enclosing `compensate` is draining. -/
theorem run_returns_iff_refills_bounded {env : Env S H} (hroot : env.tables.Rootless)
    (verb : String) (args : Json) (role actor : Option String)
    (stamp : Option (List (String × String))) (depth : Nat) (c : Cascade S H) :
    (∃ fuel r d, run env fuel verb args role actor stamp depth c = (some r, d)) ↔
      ∃ bound, ∀ fuel, refillsSince env depth c
        (run env fuel verb args role actor stamp depth c).2 ≤ bound := by
  constructor
  · rintro ⟨n, r, d, hn⟩
    -- beyond the fuel that is enough nothing changes, and below it there are finitely many
    refine ⟨(Finset.range (n + 1)).sup fun m =>
      refillsSince env depth c (run env m verb args role actor stamp depth c).2, fun fuel => ?_⟩
    have hsmall : ∀ m, m ≤ n →
        refillsSince env depth c (run env m verb args role actor stamp depth c).2 ≤
          (Finset.range (n + 1)).sup fun m =>
            refillsSince env depth c (run env m verb args role actor stamp depth c).2 :=
      fun m hm => Finset.le_sup (f := fun m =>
        refillsSince env depth c (run env m verb args role actor stamp depth c).2)
        (Finset.mem_range.mpr (Nat.lt_succ_of_le hm))
    rcases Nat.le_total fuel n with hle | hge
    · exact hsmall fuel hle
    · have hstable := run_stable env verb args role actor stamp depth n fuel hge c r d hn
      have hend := hsmall n (Nat.le_refl n)
      dsimp only at hstable
      rw [hn] at hend
      rw [hstable]
      exact hend
  · rintro ⟨bound, hbound⟩
    exact (eventually_run hroot verb args role actor stamp depth).converges c List.prefix_rfl
      ⟨0, fun n _ => hbound n⟩

/-- The order that is undone drains its ledger once, and its run ends. -/
theorem undoneOrder_refills_bounded :
    fulfilmentEnv.tables.Rootless ∧
    ∃ bound, ∀ fuel, refillsSince fulfilmentEnv 0 (.fresh ())
      (run fulfilmentEnv fuel "Shop::Order.Place" .null none none none 0 (.fresh ())).2 ≤ bound := by
  have hroot : fulfilmentEnv.tables.Rootless := fun policy hpolicy => nomatch hpolicy
  exact ⟨hroot, (run_returns_iff_refills_bounded hroot _ _ _ _ _ _ _).mp
    ⟨3, _, _, undoneOrder_returned⟩⟩

/-! ### A run that does not end -/

/-- A booking holds a seat and charges the card. A refused charge releases the seat, and a
released seat is held again. -/
def booking : ProcessManagerDef where
  name := "Booking"
  correlatesBy := "booking"
  startsOn := "Requested"
  endsOn := "Closed"
  initialState := "open"
  handlers :=
    [⟨"Requested", "open", "held",
      [⟨"Seat::Hold", [], some ⟨"Seat::Release", []⟩⟩, ⟨"Card::Charge", [], none⟩]⟩,
      ⟨REFUSED, "held", "held", []⟩,
      ⟨"Released", "held", "held", [⟨"Seat::Hold", [], some ⟨"Seat::Release", []⟩⟩]⟩]

def bookingEvent (name : String) : Event :=
  ⟨name, "Trips::Seat", "1", .object [("booking", .str "b1")], none, none⟩

def bookingAnswer (verb : String) : Except Refusal (List Event) :=
  if verb = "Trips::Booking.Request" then .ok [bookingEvent "Requested"]
  else if verb = "Trips::Card.Charge" then .error (.givenNotMet "card declined")
  else if verb = "Trips::Seat.Release" then .ok [bookingEvent "Released"]
  else .ok []

def bookingEnv : Env Unit Unit :=
  Env.plain (Tables.ofManagers [booking]) fun store verb _ _ _ mutations =>
    (bookingAnswer verb, store, mutations)

def bookingLeg : SagaLeg := ⟨booking, "b1", "Trips"⟩

namespace Booking

/-- The instance is live, in this state, with these commands on its ledger. -/
def Held (state : String) (ledger : List String) (c : Cascade Unit Unit) : Prop :=
  ∃ inst, c.sagas.lookup ("Booking", "b1") = some inst ∧ inst.state = state ∧
    inst.completedCompensations.map (·.commandName) = ledger

/-- From the states in `P` the computation returns into `Q`, or does not return. -/
abbrev Leads {α : Type} (P : Cascade Unit Unit → Prop) (f : Job Unit Unit α)
    (Q : α → Cascade Unit Unit → Prop) : Prop := Act.Triple P f Q fun _ => True

variable {P : Cascade Unit Unit → Prop} {state : String} {ledger : List String}

theorem leads_modify {u : Cascade Unit Unit → Cascade Unit Unit}
    (hu : ∀ c, (u c).sagas = c.sagas) :
    Leads (Held state ledger) (Act.modify u) fun _ => Held state ledger := by
  refine .modify fun c hc => ?_
  unfold Held
  rw [hu c]
  exact hc

theorem leads_log (record : Json) :
    Leads (Held state ledger) (logSaga record) fun _ => Held state ledger :=
  leads_modify fun _ => rfl

theorem leads_note (m : Mark) : Leads (Held state ledger) (note m) fun _ => Held state ledger :=
  leads_modify fun _ => rfl

theorem leads_call (verb : String) (args : Json) (role actor : Option String)
    (stamp : Option (List (String × String))) (depth : Nat) :
    Leads (Held state ledger) (callDispatch bookingEnv verb args role actor stamp depth)
      fun answer c => answer = (bookingAnswer verb).map (·.map (stampEvent stamp none)) ∧
        Held state ledger c := by
  intro c hc
  refine ⟨?_, fun _ _ => trivial⟩
  rintro answer d ⟨⟩
  exact ⟨rfl, hc⟩

/-- A command without events, accepted or refused. -/
theorem leads_run_quiet {verb : String} (hverb : ∀ events, bookingAnswer verb = .ok events →
      events = []) (args : Json) (role actor : Option String)
    (stamp : Option (List (String × String))) (depth n : Nat) :
    Leads (Held state ledger) (run bookingEnv n verb args role actor stamp depth)
      fun r c => r.isOk = (bookingAnswer verb).isOk ∧ Held state ledger c := by
  cases n with
  | zero => exact .stop fun _ _ => trivial
  | succ n =>
      refine .bind (leads_call verb args role actor stamp depth) fun answer => ?_
      cases hans : bookingAnswer verb with
      | error refusal =>
          intro c hc
          obtain ⟨rfl, hc⟩ := hc
          refine ⟨?_, fun _ _ => trivial⟩
          rintro r d ⟨⟩
          exact ⟨rfl, hc⟩
      | ok events =>
          intro c hc
          obtain ⟨rfl, hc⟩ := hc
          rw [hverb events hans]
          refine ⟨?_, fun _ _ => trivial⟩
          rintro r d ⟨⟩
          exact ⟨rfl, hc⟩

theorem leads_hold (args compensationArgs : Json) {depth : Nat}
    (hdepth : ¬ maxReactionDepth ≤ depth) (n : Nat) :
    Leads (Held state ledger)
      (deliverSagaDispatch (run bookingEnv n) bookingLeg
        ⟨"Seat::Hold", [], some ⟨"Seat::Release", []⟩⟩ args depth (some compensationArgs))
      fun delivered c => delivered = some true ∧ Held state (ledger ++ ["Seat::Release"]) c := by
  have hverb : qualifySagaCommandName "Trips" "Seat::Hold" = "Trips::Seat.Hold" := by
    decide
  have hans : bookingAnswer "Trips::Seat.Hold" = .ok [] := rfl
  unfold deliverSagaDispatch
  rw [if_neg hdepth]
  refine .bind (leads_note _) fun _ => ?_
  refine .bind (Q := fun recorded c => recorded = true ∧
    Held state (ledger ++ ["Seat::Release"]) c) ?_ fun recorded => ?_
  · rintro c ⟨inst, hinst, hstate, hledger⟩
    refine ⟨?_, fun _ _ => trivial⟩
    intro recorded d hd
    simp only [recordCompensation, bookingLeg, SagaLeg.key, booking, hinst] at hd
    cases hd
    refine ⟨rfl, _, AList.lookup_insert _, hstate, ?_⟩
    rw [List.map_append, hledger]
    rfl
  · dsimp only
    rw [show qualifySagaCommandName bookingLeg.domainName "Seat::Hold" = "Trips::Seat.Hold" from
      hverb]
    refine .bind (Q := fun r c => r.isOk = true ∧ Held state (ledger ++ ["Seat::Release"]) c)
      ((leads_run_quiet (fun events h => by cases hans.symm.trans h; rfl) _ _ _ _ _ n).weaken
        (fun c h => h.2) fun r c h => ⟨h.1.trans (by rw [hans]; rfl), h.2⟩) fun outcome => ?_
    cases outcome with
    | error refusal => exact fun c h => absurd h.1 (by simp [Except.isOk, Except.toBool])
    | ok =>
        exact .bind ((leads_log _).weaken (fun c h => h.2) fun _ _ h => h) fun _ =>
          .pure fun c h => ⟨rfl, h⟩

theorem leads_charge (args : Json) {depth : Nat} (hdepth : ¬ maxReactionDepth ≤ depth) (n : Nat) :
    Leads (Held state ledger)
      (deliverSagaDispatch (run bookingEnv n) bookingLeg ⟨"Card::Charge", [], none⟩ args depth none)
      fun delivered c => delivered = some false ∧ Held state ledger c := by
  have hverb : qualifySagaCommandName "Trips" "Card::Charge" = "Trips::Card.Charge" := by
    decide
  have hans : bookingAnswer "Trips::Card.Charge" = .error (.givenNotMet "card declined") := rfl
  unfold deliverSagaDispatch
  rw [if_neg hdepth]
  refine .bind (leads_note _) fun _ => ?_
  refine .bind (Q := fun recorded c => recorded = false ∧ Held state ledger c) ?_
    fun recorded => ?_
  · intro c hc
    refine ⟨?_, fun _ _ => trivial⟩
    rintro recorded d ⟨⟩
    exact ⟨rfl, hc⟩
  · dsimp only
    rw [show qualifySagaCommandName bookingLeg.domainName "Card::Charge" = "Trips::Card.Charge"
      from hverb]
    refine .bind (Q := fun r c => r.isOk = false ∧ recorded = false ∧ Held state ledger c) ?_
      fun outcome => ?_
    · intro c ⟨hrec, hc⟩
      obtain ⟨hret, hcut⟩ := leads_run_quiet (fun events h => by cases hans.symm.trans h) args none
        none (some bookingLeg.stamp) (depth + 1) n c hc
      refine ⟨fun r d hd => ?_, hcut⟩
      obtain ⟨hr, hheld⟩ := hret r d hd
      exact ⟨hr.trans (by rw [hans]; rfl), hrec, hheld⟩
    · cases outcome with
      | ok => exact fun c h => absurd h.1 (by simp [Except.isOk, Except.toBool])
      | error refusal =>
          rintro c ⟨-, rfl, hc⟩
          refine ⟨?_, fun _ _ => trivial⟩
          rintro delivered d ⟨⟩
          exact ⟨rfl, hc⟩

/-- A leg of the booking up to its dispatches. -/
theorem leads_advance {event : Event} {handler : Handler} {depth n fuel : Nat}
    {Q : Unit → Cascade Unit Unit → Prop}
    (hanswers : booking.answers event.name = true)
    (hcorr : booking.correlationOf event (fun _ => none) = some "b1")
    (hleg : booking.selectLeg event.name state = some handler)
    (hdomain : Text.firstSegment "::" event.aggregate = "Trips")
    (hrest : ∀ memory, Leads (Held handler.toState ledger)
      (deliverAll bookingEnv (run bookingEnv n) bookingLeg event memory depth handler.dispatches
          false >>= fun refused =>
        if refused then compensate bookingEnv (run bookingEnv n) fuel bookingLeg event memory depth
        else pure ()) Q) :
    Leads (Held state ledger)
      (advanceOne bookingEnv (run bookingEnv n) fuel event depth booking) Q := by
  rintro c ⟨inst, hinst, rfl, hledger⟩
  have hcorr' : booking.correlationOf event bookingEnv.tables.referenceKeyFn = some "b1" := hcorr
  unfold advanceOne
  rw [hanswers, hcorr', hdomain, Bool.not_true, if_neg Bool.false_ne_true]
  dsimp only
  have hread : (Act.read Cascade.sagas : Job Unit Unit _) c = (some c.sagas, c) := rfl
  rw [Act.bind_of_some hread]
  change c.sagas.lookup (booking.name, "b1") = some inst at hinst
  rw [hinst]
  dsimp only
  rw [hleg]
  dsimp only
  refine Act.Triple.bind (P := fun d => d = c) (Q := fun _ => Held handler.toState ledger) ?_
    (fun _ => ?_) c rfl
  · refine .modify ?_
    rintro d rfl
    rw [hinst]
    exact ⟨_, AList.lookup_insert _, rfl, hledger⟩
  · refine .bind (leads_log _) fun _ => ?_
    exact .bind (Q := fun _ => Held handler.toState ledger) (.read fun _ h => h) fun sagas =>
      hrest _

theorem leads_policies (event : Event) (n depth : Nat) :
    Leads P (reactPolicies bookingEnv (run bookingEnv n) event depth) fun _ => P :=
  .bind (Q := fun _ => P) (.pure fun _ h => h) fun _ => .pure fun _ h => h

theorem leads_begin {event : Event} (h : event.name ≠ booking.startsOn) :
    Leads P (beginSaga bookingEnv event) fun _ => P := by
  refine .bind (Q := fun _ => P) ?_ fun _ => .pure fun _ h => h
  unfold beginOne
  rw [if_pos h]
  exact .pure fun _ h => h

theorem leads_end {event : Event} (h : event.name ≠ booking.endsOn) :
    Leads P (endSaga bookingEnv event) fun _ => P := by
  refine .bind (Q := fun _ => P) ?_ fun _ => .pure fun _ h => h
  unfold endOne
  rw [if_pos h]
  exact .pure fun _ h => h

/-- A released seat is held again. -/
theorem leads_released (n fuel : Nat) :
    Leads (Held "held" [])
      (settleEvent bookingEnv (run bookingEnv n) fuel 1
        (stampEvent (some bookingLeg.stamp) none (bookingEvent "Released")))
      fun _ => Held "held" ["Seat::Release"] := by
  refine .bind (leads_note _) fun _ => .bind (leads_policies _ _ _) fun _ => ?_
  refine .bind (leads_note _) fun _ => .bind (leads_begin (by decide)) fun _ => ?_
  refine .bind (Q := fun _ => Held "held" ["Seat::Release"]) ?_ fun _ =>
    .bind (leads_end (by decide)) fun _ => leads_note _
  refine .bind (leads_advance (by decide) (by decide) rfl (by decide)
    fun memory => ?_) fun _ => .pure fun _ h => h
  refine .bind (Q := fun refused c => refused = false ∧ Held "held" ["Seat::Release"] c) ?_
    fun refused => ?_
  · refine .bind (leads_hold _ _ (by decide) n) fun delivered => ?_
    rintro c ⟨rfl, hc⟩
    refine ⟨?_, fun _ _ => trivial⟩
    rintro refused d ⟨⟩
    exact ⟨rfl, hc⟩
  · rintro c ⟨rfl, hc⟩
    refine ⟨?_, fun _ _ => trivial⟩
    rintro _ d ⟨⟩
    exact hc

theorem leads_release (args : Json) (n : Nat) :
    Leads (Held "held" [])
      (run bookingEnv n "Trips::Seat.Release" args none none (some bookingLeg.stamp) 1)
      fun _ => Held "held" ["Seat::Release"] := by
  cases n with
  | zero => exact .stop fun _ _ => trivial
  | succ n =>
      refine .bind (leads_call _ _ _ _ _ _) fun answer => ?_
      rintro c ⟨rfl, hc⟩
      refine (Act.Triple.bind (Q := fun _ => Held "held" ["Seat::Release"]) ?_ fun _ => ?_) c hc
      · exact .bind (leads_released n n) fun _ => .pure fun _ h => h
      · exact .pure fun _ h => h

/-- The drain takes the release off the ledger, and firing it puts it back. -/
theorem drain_never_ends (n rounds : Nat) :
    Leads (Held "held" ["Seat::Release"]) (drainLedger (run bookingEnv n) bookingLeg 0 rounds)
      fun _ _ => False := by
  have hverb : qualifySagaCommandName "Trips" "Seat::Release" = "Trips::Seat.Release" := by
    decide
  induction rounds with
  | zero => exact .stop fun _ _ => trivial
  | succ rounds ih =>
      refine .bind (Q := fun popped c => (∃ entry, popped = some entry ∧
        entry.commandName = "Seat::Release") ∧ Held "held" [] c) ?_ fun popped => ?_
      · rintro c ⟨inst, hinst, hstate, hledger⟩
        obtain ⟨entry, hentry, hname⟩ := List.map_eq_singleton_iff.mp hledger
        refine ⟨?_, fun _ _ => trivial⟩
        intro popped d hd
        simp only [popLedger, bookingLeg, SagaLeg.key, booking, hinst, hentry,
          List.getLast?_singleton] at hd
        cases hd
        exact ⟨⟨entry, rfl, hname⟩, _, AList.lookup_insert _, hstate, rfl⟩
      · rintro c ⟨⟨entry, rfl, hname⟩, hc⟩
        refine Act.Triple.bind (Q := fun _ => Held "held" ["Seat::Release"]) ?_ (fun _ => ih) c hc
        unfold deliverDerivedCompensation
        rw [if_neg (by decide), hname]
        refine .bind (leads_note _) fun _ => ?_
        rw [show qualifySagaCommandName bookingLeg.domainName "Seat::Release" =
          "Trips::Seat.Release" from hverb]
        refine .bind (leads_release entry.args n) fun outcome => ?_
        split
        · exact leads_log _
        · exact .bind (leads_log _) fun _ => leads_note _

theorem compensate_never_ends (event : Event) (memory : Json) (n : Nat) :
    Leads (Held "held" ["Seat::Release"])
      (compensate bookingEnv (run bookingEnv n) n bookingLeg event memory 0)
      fun _ _ => False := by
  rintro c ⟨inst, hinst, hstate, hledger⟩
  have hread : (Act.read Cascade.sagas : Job Unit Unit _) c = (some c.sagas, c) := rfl
  have hleg : booking.selectLeg REFUSED inst.state = some ⟨REFUSED, "held", "held", []⟩ := by
    rw [hstate]
    rfl
  unfold compensate
  rw [Act.bind_of_some hread]
  change c.sagas.lookup bookingLeg.key = some inst at hinst
  rw [hinst]
  dsimp only
  rw [if_neg (by decide), show bookingLeg.pm.selectLeg REFUSED inst.state = _ from hleg]
  dsimp only
  refine Act.Triple.bind (P := fun d => d = c) (Q := fun _ => Held "held" ["Seat::Release"]) ?_
    (fun _ => ?_) c rfl
  · refine .modify ?_
    rintro d rfl
    rw [hinst]
    exact ⟨_, AList.lookup_insert _, rfl, hledger⟩
  · refine .bind (leads_log _) fun _ => .bind (Q := fun _ _ => False) ?_ fun _ => fun _ h => h.elim
    exact .bind (leads_note _) fun _ => drain_never_ends n n

/-- The refused charge of a fresh booking starts that drain. -/
theorem requested_never_ends (n : Nat) :
    Leads (fun c => c.sagas.lookup ("Booking", "b1") = none)
      (settleEvent bookingEnv (run bookingEnv n) n 0 (bookingEvent "Requested"))
      fun _ _ => False := by
  have hcorr : booking.correlationOf (bookingEvent "Requested") (fun _ => none) = some "b1" := by
    decide
  refine .bind (Q := fun _ c => c.sagas.lookup ("Booking", "b1") = none) (.modify fun _ h => h)
    fun _ => .bind (leads_policies _ _ _) fun _ => ?_
  refine .bind (Q := fun _ c => c.sagas.lookup ("Booking", "b1") = none) (.modify fun _ h => h)
    fun _ => ?_
  refine .bind (Q := fun _ => Held "open" []) ?_ fun _ =>
    .bind (Q := fun _ _ => False) ?_ fun _ => fun _ h => h.elim
  · refine .bind (Q := fun _ => Held "open" []) ?_ fun _ => .pure fun _ h => h
    intro c hc
    have hread : (Act.read Cascade.sagas : Job Unit Unit _) c = (some c.sagas, c) := rfl
    unfold beginOne
    rw [if_neg (by decide), show booking.correlationOf (bookingEvent "Requested")
      bookingEnv.tables.referenceKeyFn = some "b1" from hcorr]
    dsimp only
    rw [Act.bind_of_some hread]
    change c.sagas.lookup (booking.name, "b1") = none at hc
    rw [hc, if_neg (by simp)]
    refine Act.Triple.bind (P := fun _ => True) (Q := fun _ => Held "open" []) ?_
      (fun _ => leads_log _) c trivial
    exact .modify fun _ _ => ⟨_, AList.lookup_insert _, rfl, rfl⟩
  · refine .bind (Q := fun _ _ => False) ?_ fun _ => fun _ h => h.elim
    refine leads_advance (by decide) hcorr rfl (by decide) fun memory => ?_
    refine .bind (Q := fun refused c => refused = true ∧ Held "held" ["Seat::Release"] c) ?_
      fun refused => ?_
    · refine .bind (leads_hold _ _ (by decide) n) fun delivered => ?_
      refine .bind (Q := fun delivered' c => delivered' = some false ∧
        Held "held" ["Seat::Release"] c) ?_ fun delivered' => ?_
      · exact (leads_charge _ (by decide) n).weaken (fun _ h => h.2) fun _ _ h => h
      · rintro c ⟨rfl, hc⟩
        refine ⟨?_, fun _ _ => trivial⟩
        rintro refused d ⟨⟩
        exact ⟨by simp, hc⟩
    · rintro c ⟨rfl, hc⟩
      exact compensate_never_ends _ memory n c hc

end Booking

/-- No fuel is enough: releasing the seat records its release again, and the drain goes on. -/
theorem booking_never_returns :
    bookingEnv.tables.Rootless ∧
    ¬ ∃ fuel r d, run bookingEnv fuel "Trips::Booking.Request" .null none none none 0
      (.fresh ()) = (some r, d) := by
  refine ⟨fun policy hpolicy => (nomatch hpolicy), ?_⟩
  rintro ⟨fuel, r, d, h⟩
  cases fuel with
  | zero => cases h
  | succ fuel =>
      have hans : topAnswer bookingEnv "Trips::Booking.Request" .null none none (.fresh ()) =
          .ok [bookingEvent "Requested"] := rfl
      rw [run_of_accepted hans] at h
      obtain ⟨_, _, hsettle, -⟩ := Act.bind_eq_some h
      obtain ⟨_, _, hsettle, -⟩ := Act.bind_eq_some hsettle
      exact (Booking.requested_never_ends fuel _ rfl).1 _ _ hsettle

end Hecks
