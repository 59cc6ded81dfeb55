import Hecks.Host.RateLimit

/-! What a refused caller is told to wait, against the first whole second at which it is let
through. The wait is cut to whole milliseconds before it is rounded up to seconds. -/

namespace Hecks.Host.RateLimit

open SlidingWindow

/-- The key is let through at the instant, whatever other keys asked before that, as long as it is
not forgotten. -/
def SlidingWindow.Readmits (w : SlidingWindow) (key : String) (instant : Nat) : Prop :=
  ∀ between : List Call, (∀ c ∈ between, c.key ≠ key) → w.Keeps between key →
    ((w.after between).check key instant).2.allowed = true

/-- The earliest of the key's requests that is still counted at the instant. -/
def SlidingWindow.oldestCounted (w : SlidingWindow) (key : String) (now : Nat) : Option Nat :=
  (w.entries.lookup key).bind fun e => (fresh w.window now e.stamps).head?

/-- The time left until a request stamped `oldest` leaves the window is a whole number of seconds,
or less than one second, or a millisecond and more above a whole number; and a request stamped after
the instant at hand, which the wait does not see, falls into the same second. -/
def RoundsUp (window now oldest : Nat) : Prop :=
  let left := window - (now - oldest)
  let ahead := oldest - now
  left + ahead ≤ (2 ^ 64 - 1) * 1000000000 ∧
    (left % 1000000000 + ahead = 0 ∨
      left % 1000000000 + ahead ≤ 1000000000 ∧ (left < 1000000000 ∨ 1000000 ≤ left % 1000000000))

instance (window now oldest : Nat) : Decidable (RoundsUp window now oldest) :=
  inferInstanceAs (Decidable (_ ∧ _))

theorem least_second {due r : Nat} (positive : 0 < due) :
    IsLeast {s | due ≤ s * 1000000000} r ↔ due ≤ r * 1000000000 ∧ (r - 1) * 1000000000 < due := by
  constructor
  · rintro ⟨reached, least⟩
    rw [Set.mem_ofPred_eq] at reached
    refine ⟨reached, ?_⟩
    by_contra short
    have sooner : due ≤ (r - 1) * 1000000000 := Nat.le_of_not_lt short
    have below : r ≤ r - 1 := least sooner
    omega
  · rintro ⟨reached, least⟩
    refine ⟨reached, ?_⟩
    intro s late
    rw [Set.mem_ofPred_eq] at late
    omega

theorem retryAfter_least {window now oldest : Nat} (counted : stale window now oldest = false) :
    IsLeast {s | window ≤ now + s * 1000000000 - oldest} (retryAfter (window - (now - oldest))) ↔
      RoundsUp window now oldest := by
  rw [stale, decide_eq_false_iff_not] at counted
  have instants : {s | window ≤ now + s * 1000000000 - oldest} =
      {s | window - (now - oldest) + (oldest - now) ≤ s * 1000000000} := by
    ext s
    rw [Set.mem_ofPred_eq, Set.mem_ofPred_eq]
    omega
  have left : 0 < window - (now - oldest) := by omega
  rw [instants, least_second (by omega)]
  unfold retryAfter RoundsUp
  omega

/-! ### What a key's entry goes through -/

variable {window now : Nat} {key : String}

theorem sweep_lookup (recency : List (Nat × String)) (entries : AList fun _ : String => Entry) :
    (sweep window now recency entries).2.lookup key = entries.lookup key ∨
      (sweep window now recency entries).2.lookup key = none := by
  induction recency generalizing entries with
  | nil => exact .inl rfl
  | cons r rest ih =>
    rw [sweep]
    by_cases old : (entries.lookup r.2).all (Entry.expired window now) = true
    · rw [if_pos old]
      obtain same | gone := ih (entries.erase r.2)
      · rw [same]
        by_cases mine : key = r.2
        · subst mine
          exact .inr (AList.lookup_erase r.2 entries)
        · exact .inl (AList.lookup_erase_ne mine)
      · exact .inr gone
    · rw [if_neg old]
      exact .inl rfl

theorem dropOldest_lookup (maxKeys : Nat) (recency : List (Nat × String))
    (entries : AList fun _ : String => Entry) :
    (dropOldest maxKeys recency entries).2.lookup key = entries.lookup key ∨
      (dropOldest maxKeys recency entries).2.lookup key = none := by
  induction recency generalizing entries with
  | nil => exact .inl rfl
  | cons r rest ih =>
    rw [dropOldest]
    by_cases full : maxKeys ≤ entries.keys.length
    · rw [if_pos full]
      obtain same | gone := ih (entries.erase r.2)
      · rw [same]
        by_cases mine : key = r.2
        · subst mine
          exact .inr (AList.lookup_erase r.2 entries)
        · exact .inl (AList.lookup_erase_ne mine)
      · exact .inr gone
    · rw [if_neg full]
      exact .inl rfl

/-- Making room forgets whole keys. -/
theorem makeRoom_lookup (w : SlidingWindow) (now : Nat) (key : String) :
    (w.makeRoom now).entries.lookup key = w.entries.lookup key ∨
      (w.makeRoom now).entries.lookup key = none := by
  unfold makeRoom
  by_cases free : w.entries.keys.length < w.maxKeys
  · rw [if_pos free]
    exact .inl rfl
  · rw [if_neg free]
    obtain same | gone := @dropOldest_lookup key w.maxKeys
      (sweep w.window now w.recency w.entries).1 (sweep w.window now w.recency w.entries).2
    · obtain same' | gone := @sweep_lookup w.window now key w.recency w.entries
      · exact .inl (same.trans same')
      · exact .inr (same.trans gone)
    · exact .inr gone

/-- A key never has more stamps than the limit, whatever the instants of the calls. -/
structure SlidingWindow.Capped (w : SlidingWindow) : Prop where
  limit : 0 < w.limit
  stamps : ∀ key e, w.entries.lookup key = some e → e.stamps.length ≤ w.limit

theorem capped_new (limit window maxKeys : Nat) : (new limit window maxKeys).Capped where
  limit := Nat.le_max_right limit 1
  stamps := fun key e found => by
    rw [new, AList.lookup_empty] at found
    cases found

theorem fresh_length (window now : Nat) (stamps : List Nat) :
    (fresh window now stamps).length ≤ stamps.length :=
  (fresh_suffix window now stamps).length_le

theorem capped_check {w : SlidingWindow} (h : w.Capped) (key : String) (now : Nat) :
    (w.check key now).1.Capped := by
  have positive := h.limit
  have settings := (check_settings w key now).1
  have limit : (w.check key now).1.limit = w.limit := congrArg Prod.fst settings
  refine ⟨by rw [limit]; exact positive, ?_⟩
  intro other d found
  rw [limit]
  obtain ⟨e, held, -, -, eq⟩ | ⟨e, held, room, -, eq⟩ | ⟨free, -, eq⟩ := check_cases w key now
  · rw [eq] at found
    by_cases same : other = key
    · subst same
      rw [AList.lookup_insert] at found
      cases found
      exact (fresh_length w.window now e.stamps).trans (h.stamps other e held)
    · rw [AList.lookup_insert_ne same] at found
      exact h.stamps other d found
  · rw [eq] at found
    by_cases same : other = key
    · subst same
      rw [AList.lookup_insert] at found
      cases found
      rw [List.length_append]
      exact room
    · rw [AList.lookup_insert_ne same] at found
      exact h.stamps other d found
  · have absent : (w.makeRoom now).entries.lookup key = none := by
      obtain same | gone := makeRoom_lookup w now key
      · rw [same, free]
      · exact gone
    rw [eq absent] at found
    by_cases same : other = key
    · subst same
      rw [AList.lookup_insert] at found
      cases found
      exact positive
    · rw [AList.lookup_insert_ne same] at found
      obtain kept | gone := makeRoom_lookup w now other
      · rw [kept] at found
        exact h.stamps other d found
      · rw [gone] at found
        cases found

theorem capped_after {w : SlidingWindow} (h : w.Capped) (calls : List Call) :
    (w.after calls).Capped := by
  induction calls generalizing w with
  | nil => exact h
  | cons c rest ih => exact ih (capped_check h c.key c.now)

/-- A call of another key leaves the entry as it is, or forgets it. -/
theorem lookup_check {w : SlidingWindow} {c : Call} (other : c.key ≠ key) :
    (w.check c.key c.now).1.entries.lookup key = w.entries.lookup key ∨
      (w.check c.key c.now).1.entries.lookup key = none := by
  obtain ⟨e, -, -, -, eq⟩ | ⟨e, -, -, -, eq⟩ | ⟨free, -, eq⟩ := check_cases w c.key c.now
  · rw [eq]
    exact .inl (AList.lookup_insert_ne (Ne.symm other))
  · rw [eq]
    exact .inl (AList.lookup_insert_ne (Ne.symm other))
  · have absent : (w.makeRoom c.now).entries.lookup c.key = none := by
      obtain same | gone := makeRoom_lookup w c.now c.key
      · rw [same, free]
      · exact gone
    rw [eq absent, AList.lookup_insert_ne (Ne.symm other)]
    exact makeRoom_lookup w c.now key

theorem lookup_after {w : SlidingWindow} {calls : List Call} {e : Entry}
    (others : ∀ c ∈ calls, c.key ≠ key) (keeps : w.Keeps calls key)
    (found : w.entries.lookup key = some e) : (w.after calls).entries.lookup key = some e := by
  induction calls generalizing w with
  | nil => exact found
  | cons c rest ih =>
    rw [after_cons]
    refine ih (fun d mem => others d (List.mem_cons_of_mem c mem)) ?_ ?_
    · intro before d more split
      have there := keeps (c :: before) d more (by rw [split, List.cons_append])
      rwa [after_cons] at there
    · obtain same | gone := @lookup_check key w c (others c List.mem_cons_self)
      · rw [same]
        exact found
      · exfalso
        apply keeps [] c rest rfl
        refine ⟨?_, ?_⟩
        · rw [after_nil, ← AList.lookup_isSome, found]
          rfl
        · rw [after_nil, ← AList.lookup_eq_none]
          exact gone

theorem allowed_iff {w : SlidingWindow} {e : Entry} (found : w.entries.lookup key = some e) :
    (w.check key now).2.allowed = true ↔ (fresh w.window now e.stamps).length < w.limit := by
  obtain ⟨d, held, full, no, -⟩ | ⟨d, held, room, yes, -⟩ | ⟨free, -⟩ := check_cases w key now
  · rw [found] at held
    cases held
    simp only [no, Bool.false_eq_true, false_iff]
    omega
  · rw [found] at held
    cases held
    simp only [yes, room]
  · rw [found] at free
    cases free

/-- What a refusal leaves: as many stamps as the limit, the first of them still counted. -/
theorem refused_stamps {w : SlidingWindow} (h : w.Capped)
    (refused : (w.check key now).2.allowed = false) :
    ∃ oldest later seq, w.oldestCounted key now = some oldest ∧
      stale w.window now oldest = false ∧ later.length + 1 = w.limit ∧
      (w.check key now).2.retryAfterSecs = retryAfter (w.window - (now - oldest)) ∧
      (w.check key now).1.entries.lookup key = some ⟨oldest :: later, seq⟩ := by
  obtain ⟨e, found, full, -, eq⟩ | ⟨e, -, -, yes, -⟩ | ⟨-, yes, -⟩ := check_cases w key now
  · have positive := h.limit
    have most := (fresh_length w.window now e.stamps).trans (h.stamps key e found)
    cases stamps : fresh w.window now e.stamps with
    | nil =>
      rw [stamps, List.length_nil] at full
      omega
    | cons oldest later =>
      rw [stamps, List.length_cons] at full most
      have first : (e.stamps.dropWhile (stale w.window now)).head? = some oldest := by
        rw [← fresh, stamps, List.head?_cons]
      refine ⟨oldest, later, e.seq, ?_, ?_, by omega, ?_, ?_⟩
      · rw [oldestCounted, found, Option.bind_some, stamps, List.head?_cons]
      · have none := List.head?_dropWhile_not (stale w.window now) e.stamps
        rw [first] at none
        exact none
      · have limit : w.limit ≤ (oldest :: later).length := by rw [List.length_cons]; omega
        simp only [check, found, stamps, if_pos limit, List.head?_cons, Option.getD_some]
      · rw [eq, AList.lookup_insert, stamps]
  · rw [yes] at refused
    cases refused
  · rw [yes] at refused
    cases refused

/-- A key whose stamps are as many as the limit is let through once the first of them is old. -/
theorem readmits_iff {w : SlidingWindow} {oldest seq instant : Nat} {later : List Nat}
    (found : w.entries.lookup key = some ⟨oldest :: later, seq⟩)
    (full : later.length + 1 = w.limit) :
    w.Readmits key instant ↔ w.window ≤ instant - oldest := by
  have same : ∀ between : List Call, (w.after between).limit = w.limit ∧
      (w.after between).window = w.window := by
    intro between
    have settings := after_settings w between
    exact ⟨congrArg Prod.fst settings, congrArg (·.2.1) settings⟩
  have one : ∀ between : List Call, (∀ c ∈ between, c.key ≠ key) → w.Keeps between key →
      (((w.after between).check key instant).2.allowed = true ↔ w.window ≤ instant - oldest) := by
    intro between others keeps
    rw [allowed_iff (lookup_after others keeps found), (same between).1, (same between).2]
    by_cases old : w.window ≤ instant - oldest
    · have front : stale w.window instant oldest = true := decide_eq_true old
      have fewer := fresh_length w.window instant later
      simp only [fresh, List.dropWhile_cons_of_pos front, old, iff_true]
      rw [fresh] at fewer
      omega
    · have front : ¬ stale w.window instant oldest = true := by
        rw [stale, decide_eq_true_eq]
        exact old
      simp only [fresh, List.dropWhile_cons_of_neg front, old, iff_false, List.length_cons]
      omega
  constructor
  · intro readmits
    have nobody : w.Keeps [] key := by
      intro before c rest split
      simp at split
    exact (one [] (by simp) nobody).mp (readmits [] (by simp) nobody)
  · intro old between others keeps
    exact (one between others keeps).mpr old

/-- From any state that calls lead to, in whatever order their instants come: a refused key is
answered the least number of whole seconds after which it is let through exactly when the time left
until its oldest counted request leaves the window rounds up. -/
theorem retry_after_least_iff (limit window maxKeys : Nat) (calls : List Call) (key : String)
    (now : Nat) :
    let w := (new limit window maxKeys).after calls
    let refused := w.check key now
    refused.2.allowed = false → ∃ oldest ∈ w.oldestCounted key now,
      (IsLeast {s | refused.1.Readmits key (now + s * 1000000000)} refused.2.retryAfterSecs ↔
        RoundsUp window now oldest) := by
  intro w refused no
  obtain ⟨oldest, later, seq, first, counted, full, answer, found⟩ :=
    refused_stamps (capped_after (capped_new limit window maxKeys) calls) no
  have width : w.window = window :=
    congrArg (·.2.1) (after_settings (new limit window maxKeys) calls)
  have settings := (check_settings w key now).1
  have limits : refused.1.limit = w.limit := congrArg Prod.fst settings
  have widths : refused.1.window = window :=
    (congrArg (·.2.1) settings : refused.1.window = w.window).trans width
  refine ⟨oldest, first, ?_⟩
  have instants : {s | refused.1.Readmits key (now + s * 1000000000)} =
      {s | window ≤ now + s * 1000000000 - oldest} := by
    ext s
    rw [Set.mem_ofPred_eq, Set.mem_ofPred_eq, readmits_iff found (by rw [limits]; exact full),
      widths]
  have wait : refused.2.retryAfterSecs = retryAfter (window - (now - oldest)) := by
    rw [← width]
    exact answer
  rw [instants, wait]
  apply retryAfter_least
  rw [← width]
  exact counted

/-- A wait of a second and a nanosecond is answered one second, and the key is refused again. -/
theorem retry_a_nanosecond_early :
    let w := (new 1 2000000000 1).after [⟨"a", 0⟩]
    let refused := w.check "a" 999999999
    refused.2.allowed = false ∧ refused.2.retryAfterSecs = 1 ∧
      ¬ refused.1.Readmits "a" (999999999 + refused.2.retryAfterSecs * 1000000000) := by
  refine ⟨by decide, by decide, ?_⟩
  intro readmits
  have nobody : ((new 1 2000000000 1).after [⟨"a", 0⟩]).check "a" 999999999 |>.1.Keeps [] "a" := by
    intro before c rest split
    simp at split
  exact absurd (readmits [] (by simp) nobody) (by decide)

/-- A refusal whose wait is one and a half seconds. -/
theorem retry_after_two_seconds :
    ∃ oldest ∈ ((new 1 2000000000 1).after [⟨"a", 0⟩]).oldestCounted "a" 500000000,
      (IsLeast {s | (((new 1 2000000000 1).after [⟨"a", 0⟩]).check "a" 500000000).1.Readmits "a"
          (500000000 + s * 1000000000)}
        (((new 1 2000000000 1).after [⟨"a", 0⟩]).check "a" 500000000).2.retryAfterSecs ↔
        RoundsUp 2000000000 500000000 oldest) :=
  retry_after_least_iff 1 2000000000 1 [⟨"a", 0⟩] "a" 500000000 (by decide)

/-! ### One caller among others -/

/-- What the key's calls are told, in their order. -/
def SlidingWindow.told (w : SlidingWindow) (key : String) : List Call → List Decision
  | [] => []
  | c :: rest =>
      let next := w.check c.key c.now
      (if c.key = key then [next.2] else []) ++ next.1.told key rest

/-- What a key that holds these stamps is told, and the stamps it holds then. -/
def answered (limit window now : Nat) : Option (List Nat) → Decision × List Nat
  | none => (⟨true, limit - 1, 0⟩, [now])
  | some stamps =>
      let kept := fresh window now stamps
      if limit ≤ kept.length then
        (⟨false, 0, retryAfter (window - (now - kept.head?.getD now))⟩, kept)
      else (⟨true, limit - (kept.length + 1), 0⟩, kept ++ [now])

/-- What a key that holds these stamps is told at these instants, asking alone. -/
def alone (limit window : Nat) : Option (List Nat) → List Nat → List Decision
  | _, [] => []
  | held, now :: later =>
      let next := answered limit window now held
      next.1 :: alone limit window (some next.2) later

namespace SlidingWindow

def stampsOf (w : SlidingWindow) (key : String) : Option (List Nat) :=
  (w.entries.lookup key).map (·.stamps)

/-- The window has room for all of the keys, and holds no others. -/
structure Roomy (w : SlidingWindow) (keys : List String) : Prop where
  room : keys.length ≤ w.maxKeys
  within : ∀ k ∈ w.entries, k ∈ keys

variable {w : SlidingWindow} {keys : List String} {key : String}

/-- Nothing is forgotten to make room for one of the keys. -/
theorem Roomy.makeRoom_eq (roomy : w.Roomy keys) (mem : key ∈ keys) (now : Nat)
    (absent : w.entries.lookup key = none) : w.makeRoom now = w := by
  have new : key ∉ w.entries := AList.lookup_eq_none.mp absent
  have fewer : (key :: w.entries.keys).length ≤ keys.length := by
    refine List.Subperm.length_le (List.subperm_of_subset ?_ ?_)
    · exact List.nodup_cons.mpr ⟨new, w.entries.nodupKeys⟩
    · exact List.cons_subset.mpr ⟨mem, fun k held => roomy.within k held⟩
  have short : w.entries.keys.length < w.maxKeys := Nat.lt_of_lt_of_le fewer roomy.room
  rw [makeRoom, if_pos short]

/-- A call for one of the keys changes the entry of that key alone. -/
theorem Roomy.check_spec (roomy : w.Roomy keys) (mem : key ∈ keys) (now : Nat) :
    ∃ e, (w.check key now).1.entries = w.entries.insert key e ∧
      (w.check key now).2 = (answered w.limit w.window now (w.stampsOf key)).1 ∧
      e.stamps = (answered w.limit w.window now (w.stampsOf key)).2 := by
  unfold check stampsOf
  cases found : w.entries.lookup key with
  | none =>
    dsimp only
    rw [roomy.makeRoom_eq mem now found, record, found]
    exact ⟨_, rfl, rfl, rfl⟩
  | some e =>
    dsimp only [Option.map_some, answered]
    split
    · exact ⟨_, rfl, rfl, rfl⟩
    · unfold record
      dsimp only
      rw [AList.lookup_insert]
      dsimp only
      refine ⟨_, AList.insert_insert _, ?_, rfl⟩
      rw [List.length_append, List.length_singleton]

theorem Roomy.check (roomy : w.Roomy keys) (mem : key ∈ keys) (now : Nat) :
    (w.check key now).1.Roomy keys := by
  obtain ⟨e, entries, -⟩ := roomy.check_spec mem now
  have settings := congrArg (·.2.2) (check_settings w key now).1
  refine ⟨roomy.room.trans (Nat.le_of_eq settings.symm), fun k held => ?_⟩
  rw [entries] at held
  obtain rfl | before := (AList.mem_insert _).mp held
  · exact mem
  · exact roomy.within k before

/-- What the key is told is read off its own stamps and its own calls. -/
theorem told_eq_alone {calls : List Call} (roomy : w.Roomy keys)
    (listed : ∀ c ∈ calls, c.key ∈ keys) :
    w.told key calls = alone w.limit w.window (w.stampsOf key) (times key calls) := by
  induction calls generalizing w with
  | nil => rfl
  | cons c rest ih =>
    have here := listed c List.mem_cons_self
    obtain ⟨e, entries, answer, held⟩ := roomy.check_spec here c.now
    have settings := (check_settings w c.key c.now).1
    have later := ih (roomy.check here c.now) fun d mem => listed d (List.mem_cons_of_mem c mem)
    rw [show (w.check c.key c.now).1.limit = w.limit from congrArg (·.1) settings,
      show (w.check c.key c.now).1.window = w.window from congrArg (·.2.1) settings, stampsOf,
      entries] at later
    unfold times at later ⊢
    rw [told, later, List.filter_cons]
    by_cases own : c.key = key
    · subst own
      rw [AList.lookup_insert, if_pos rfl, answer, if_pos (decide_eq_true rfl)]
      dsimp only [Option.map_some]
      rw [held]
      rfl
    · rw [AList.lookup_insert_ne (Ne.symm own), if_neg own, if_neg (by simpa using own)]
      rfl

theorem roomy_new (limit window : Nat) {maxKeys : Nat} (room : keys.length ≤ maxKeys) :
    (new limit window maxKeys).Roomy keys where
  room := room.trans (Nat.le_max_left _ _)
  within k held := absurd held (AList.notMem_empty k)

/-- As long as the callers are no more than the window keeps, each is told what it would be told
if it had asked alone. -/
theorem callers_apart (limit window maxKeys : Nat) (calls : List Call) (key : String)
    (few : (calls.map (·.key)).dedup.length ≤ maxKeys) :
    (new limit window maxKeys).told key calls =
      (new limit window maxKeys).told key (calls.filter fun c => c.key = key) := by
  have roomy := roomy_new limit window few
  have listed : ∀ c ∈ calls, c.key ∈ (calls.map (·.key)).dedup := fun c mem =>
    List.mem_dedup.mpr (List.mem_map_of_mem mem)
  rw [told_eq_alone roomy listed,
    told_eq_alone roomy fun c mem => listed c (List.mem_of_mem_filter mem), times, times,
    List.filter_filter]
  simp

theorem two_callers_apart :
    (new 1 60 2).told "a" [⟨"a", 0⟩, ⟨"b", 1⟩, ⟨"a", 2⟩] =
      (new 1 60 2).told "a" ([⟨"a", 0⟩, ⟨"b", 1⟩, ⟨"a", 2⟩].filter fun c => c.key = "a") :=
  callers_apart 1 60 2 [⟨"a", 0⟩, ⟨"b", 1⟩, ⟨"a", 2⟩] "a" (by decide)

end SlidingWindow

end Hecks.Host.RateLimit
