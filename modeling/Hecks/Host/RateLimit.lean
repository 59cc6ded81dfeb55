import Mathlib
import Hecks.Lib.Maps

/-! The sliding-window limit over the public write routes: how many requests of one key are let
through, and which keys are forgotten when the table is full. -/

namespace Hecks.Host.RateLimit

/-- The outcome of counting one request against a window. -/
structure Decision where
  /-- Whether the request may proceed; when true it has been recorded. -/
  allowed : Bool
  /-- Requests still allowed in the current window after this one. -/
  remaining : Nat
  /-- Whole seconds until a refused caller may try again; 0 when allowed. -/
  retryAfterSecs : Nat

/-- The instants of a key's allowed requests, oldest first, and the sequence of the last. -/
structure Entry where
  stamps : List Nat
  seq : Nat

/-- Instants and the window are in nanoseconds. `recency` holds the keys by the sequence of their
last allowed request, and sequences are counted modulo `2 ^ 64`. -/
structure SlidingWindow where
  limit : Nat
  window : Nat
  maxKeys : Nat
  entries : AList fun _ : String => Entry
  recency : List (Nat × String)
  nextSeq : Nat

/-- `now.saturating_duration_since(stamp) >= window`. -/
def stale (window now stamp : Nat) : Bool := window ≤ now - stamp

/-- The stamps left once those at the front that have left the window are popped. -/
def fresh (window now : Nat) (stamps : List Nat) : List Nat := stamps.dropWhile (stale window now)

/-- The last allowed request of the key has left the window. -/
def Entry.expired (window now : Nat) (entry : Entry) : Bool :=
  entry.stamps.getLast?.all (stale window now)

namespace SlidingWindow

/-- A zero `limit` or `max_keys` is raised to 1. -/
def new (limit window maxKeys : Nat) : SlidingWindow where
  limit := max limit 1
  window := window
  maxKeys := max maxKeys 1
  entries := ∅
  recency := []
  nextSeq := 0

/-- Sweeps the keys whose last request left the window, least recent first. -/
def sweep (window now : Nat) : List (Nat × String) → (AList fun _ : String => Entry) →
    List (Nat × String) × AList fun _ : String => Entry
  | [], entries => ([], entries)
  | (seq, key) :: rest, entries =>
      if (entries.lookup key).all (Entry.expired window now) then
        sweep window now rest (entries.erase key)
      else ((seq, key) :: rest, entries)

/-- Drops the least recently active keys while the table is full. -/
def dropOldest (maxKeys : Nat) : List (Nat × String) → (AList fun _ : String => Entry) →
    List (Nat × String) × AList fun _ : String => Entry
  | [], entries => ([], entries)
  | (seq, key) :: rest, entries =>
      if maxKeys ≤ entries.keys.length then dropOldest maxKeys rest (entries.erase key)
      else ((seq, key) :: rest, entries)

def makeRoom (w : SlidingWindow) (now : Nat) : SlidingWindow :=
  if w.entries.keys.length < w.maxKeys then w
  else
    let swept := sweep w.window now w.recency w.entries
    let cut := dropOldest w.maxKeys swept.1 swept.2
    { w with recency := cut.1, entries := cut.2 }

def record (w : SlidingWindow) (key : String) (now : Nat) : SlidingWindow × Decision :=
  match w.entries.lookup key with
  | some entry =>
      let stamps := entry.stamps ++ [now]
      ({ w with
          nextSeq := (w.nextSeq + 1) % 2 ^ 64
          recency := Maps.insert w.nextSeq key (Maps.remove entry.seq w.recency)
          entries := w.entries.insert key ⟨stamps, w.nextSeq⟩ },
        ⟨true, w.limit - stamps.length, 0⟩)
  | none =>
      ({ w with
          nextSeq := (w.nextSeq + 1) % 2 ^ 64
          recency := Maps.insert w.nextSeq key w.recency
          entries := w.entries.insert key ⟨[now], w.nextSeq⟩ },
        ⟨true, w.limit - 1, 0⟩)

/-- `u64::try_from(wait.as_millis().div_ceil(1000)).unwrap_or(u64::MAX).max(1)`. -/
def retryAfter (wait : Nat) : Nat := max (min ((wait / 1000000 + 999) / 1000) (2 ^ 64 - 1)) 1

def check (w : SlidingWindow) (key : String) (now : Nat) : SlidingWindow × Decision :=
  match w.entries.lookup key with
  | some entry =>
      let stamps := fresh w.window now entry.stamps
      let popped := { w with entries := w.entries.insert key ⟨stamps, entry.seq⟩ }
      if w.limit ≤ stamps.length then
        let wait := w.window - (now - stamps.head?.getD now)
        (popped, ⟨false, 0, retryAfter wait⟩)
      else popped.record key now
  | none => (w.makeRoom now).record key now

end SlidingWindow

/-- One call of `check`. -/
structure Call where
  key : String
  now : Nat

namespace SlidingWindow

/-- The window after a sequence of calls. -/
def after (w : SlidingWindow) (calls : List Call) : SlidingWindow :=
  calls.foldl (fun w c => (w.check c.key c.now).1) w

/-- The calls of a sequence that were let through. -/
def granted (w : SlidingWindow) : List Call → List Call
  | [] => []
  | c :: rest =>
      let next := w.check c.key c.now
      if next.2.allowed then c :: next.1.granted rest else next.1.granted rest

/-- The call forgets the key. -/
def Evicts (w : SlidingWindow) (c : Call) (key : String) : Prop :=
  key ∈ w.entries ∧ key ∉ (w.check c.key c.now).1.entries

/-- No call of the sequence forgets the key. -/
def Keeps (w : SlidingWindow) (calls : List Call) (key : String) : Prop :=
  ∀ before c rest, calls = before ++ c :: rest → ¬ (w.after before).Evicts c key

end SlidingWindow

open SlidingWindow

variable {window now : Nat}

/-- The recency index holds exactly the keys of the table, each under its own sequence. -/
structure Paired (recency : List (Nat × String)) (entries : AList fun _ : String => Entry) :
    Prop where
  index : ∀ seq key, (seq, key) ∈ recency ↔ ∃ e, entries.lookup key = some e ∧ e.seq = seq
  sorted : Maps.Sorted recency

namespace Paired

variable {recency : List (Nat × String)} {entries : AList fun _ : String => Entry}

theorem keys_nodup (paired : Paired recency entries) : (recency.map Prod.snd).Nodup := by
  rw [List.Nodup, List.pairwise_map]
  refine List.Pairwise.imp_of_mem ?_ paired.sorted
  rintro ⟨s, key⟩ ⟨t, other⟩ first second less same
  obtain ⟨e, found, rfl⟩ := (paired.index s key).mp first
  obtain ⟨d, again, rfl⟩ := (paired.index t other).mp second
  cases same
  rw [found] at again
  cases again
  exact lt_irrefl _ less

theorem mem_keys (paired : Paired recency entries) (key : String) :
    key ∈ recency.map Prod.snd ↔ key ∈ entries := by
  rw [← AList.lookup_isSome, Option.isSome_iff_exists, List.mem_map]
  constructor
  · rintro ⟨⟨seq, _⟩, mem, rfl⟩
    obtain ⟨e, found, -⟩ := (paired.index _ _).mp mem
    exact ⟨e, found⟩
  · rintro ⟨e, found⟩
    exact ⟨(e.seq, key), (paired.index _ _).mpr ⟨e, found, rfl⟩, rfl⟩

theorem sized (paired : Paired recency entries) : entries.keys.length = recency.length := by
  have same : entries.keys.Perm (recency.map Prod.snd) := by
    rw [List.perm_ext_iff_of_nodup entries.keys_nodup paired.keys_nodup]
    intro key
    rw [paired.mem_keys, AList.mem_keys]
  rw [same.length_eq, List.length_map]

/-- Dropping the least recent key from both. -/
theorem tail {r : Nat × String} (paired : Paired (r :: recency) entries) :
    Paired recency (entries.erase r.2) := by
  have nodup := paired.keys_nodup
  rw [List.map_cons, List.nodup_cons] at nodup
  constructor
  · intro seq key
    by_cases same : key = r.2
    · subst same
      rw [AList.lookup_erase]
      constructor
      · intro mem
        exact absurd (List.mem_map_of_mem mem) nodup.1
      · rintro ⟨e, found, -⟩
        cases found
    · rw [AList.lookup_erase_ne same, ← paired.index, List.mem_cons]
      constructor
      · exact .inr
      · rintro (rfl | mem)
        · exact absurd rfl same
        · exact mem
  · exact (List.pairwise_cons.mp paired.sorted).2

/-- The key of a new request goes to the end of the index. -/
theorem arrive {others : List (Nat × String)} {key : String} {e : Entry}
    (rest : ∀ seq k, (seq, k) ∈ others ↔ k ≠ key ∧ ∃ d, entries.lookup k = some d ∧ d.seq = seq)
    (sorted : Maps.Sorted others) (above : ∀ r ∈ others, r.1 < e.seq) :
    Paired (Maps.insert e.seq key others) (entries.insert key e) := by
  rw [Maps.insert_above above]
  constructor
  · intro seq k
    rw [List.mem_append, List.mem_singleton, rest]
    by_cases same : k = key
    · subst same
      rw [AList.lookup_insert]
      simp [eq_comm]
    · rw [AList.lookup_insert_ne same]
      simp [same]
  · exact sorted.snoc above

end Paired

/-- What sweeping and dropping do: some least recent keys go, the rest is as it was. -/
structure Forgets (recency : List (Nat × String)) (entries : AList fun _ : String => Entry)
    (gone kept : List (Nat × String)) (left : AList fun _ : String => Entry) : Prop where
  split : recency = gone ++ kept
  paired : Paired kept left
  lookup : ∀ key, left.lookup key = if key ∈ gone.map Prod.snd then none else entries.lookup key

theorem Forgets.none {recency : List (Nat × String)} {entries : AList fun _ : String => Entry}
    (paired : Paired recency entries) : Forgets recency entries [] recency entries :=
  ⟨rfl, paired, fun _ => rfl⟩

theorem Forgets.cons {recency gone kept : List (Nat × String)} {r : Nat × String}
    {entries left : AList fun _ : String => Entry}
    (later : Forgets recency (entries.erase r.2) gone kept left) :
    Forgets (r :: recency) entries (r :: gone) kept left := by
  refine ⟨by rw [later.split, List.cons_append], later.paired, ?_⟩
  intro key
  rw [later.lookup, List.map_cons]
  by_cases same : key = r.2
  · subst same
    rw [AList.lookup_erase, ite_self, if_pos List.mem_cons_self]
  · rw [AList.lookup_erase_ne same]
    simp only [List.mem_cons, same, false_or]

theorem sweep_spec (window now : Nat) {recency : List (Nat × String)} {entries : AList fun _ : String => Entry}
    (paired : Paired recency entries) :
    ∃ gone, Forgets recency entries gone (sweep window now recency entries).1
        (sweep window now recency entries).2 ∧
      (∀ r ∈ gone, ∀ e, entries.lookup r.2 = some e → e.expired window now = true) ∧
      ∀ r ∈ (sweep window now recency entries).1.head?,
        ∃ e, entries.lookup r.2 = some e ∧ e.expired window now = false := by
  induction recency generalizing entries with
  | nil => exact ⟨[], .none paired, by simp, by simp [sweep]⟩
  | cons r rest ih =>
    obtain ⟨e, found, -⟩ := (paired.index r.1 r.2).mp List.mem_cons_self
    have nodup := paired.keys_nodup
    rw [List.map_cons, List.nodup_cons] at nodup
    rw [sweep, found, Option.all_some]
    by_cases old : e.expired window now = true
    · rw [if_pos old]
      obtain ⟨gone, forgets, all, first⟩ := ih paired.tail
      refine ⟨r :: gone, forgets.cons, ?_, ?_⟩
      · intro d mem f look
        rcases List.mem_cons.mp mem with rfl | mem
        · rw [found] at look
          cases look
          exact old
        · have other : d.2 ≠ r.2 := by
            intro same
            apply nodup.1
            rw [← same, forgets.split]
            exact List.mem_map_of_mem (List.mem_append_left _ mem)
          exact all d mem f (by rw [AList.lookup_erase_ne other]; exact look)
      · intro d head
        obtain ⟨f, look, new⟩ := first d head
        have other : d.2 ≠ r.2 := by
          intro same
          rw [same, AList.lookup_erase] at look
          cases look
        rw [AList.lookup_erase_ne other] at look
        exact ⟨f, look, new⟩
    · rw [if_neg old]
      refine ⟨[], .none paired, by simp, ?_⟩
      rintro _ ⟨⟩
      exact ⟨e, found, by simpa using old⟩

theorem dropOldest_spec {maxKeys : Nat} {recency : List (Nat × String)}
    {entries : AList fun _ : String => Entry} (paired : Paired recency entries) (room : 0 < maxKeys) :
    ∃ gone, Forgets recency entries gone (dropOldest maxKeys recency entries).1
        (dropOldest maxKeys recency entries).2 ∧
      (dropOldest maxKeys recency entries).1.length < maxKeys ∧
      (gone ≠ [] → maxKeys ≤ recency.length) := by
  induction recency generalizing entries with
  | nil => exact ⟨[], .none paired, room, by simp⟩
  | cons r rest ih =>
    rw [dropOldest, paired.sized]
    by_cases full : maxKeys ≤ (r :: rest).length
    · rw [if_pos full]
      obtain ⟨gone, forgets, fits, -⟩ := ih paired.tail
      exact ⟨r :: gone, forgets.cons, fits, fun _ => full⟩
    · rw [if_neg full]
      exact ⟨[], .none paired, by simpa using full, by simp⟩

theorem mem_fresh {stamps : List Nat} (ordered : stamps.Pairwise (· ≤ ·)) (s : Nat) :
    s ∈ fresh window now stamps ↔ s ∈ stamps ∧ stale window now s = false := by
  induction stamps with
  | nil => simp [fresh]
  | cons first rest ih =>
    rw [List.pairwise_cons] at ordered
    by_cases old : stale window now first = true
    · have same : fresh window now (first :: rest) = fresh window now rest := by
        simp [fresh, old]
      rw [same, ih ordered.2, List.mem_cons]
      constructor
      · rintro ⟨mem, new⟩
        exact ⟨.inr mem, new⟩
      · rintro ⟨rfl | mem, new⟩
        · rw [old] at new
          cases new
        · exact ⟨mem, new⟩
    · have same : fresh window now (first :: rest) = first :: rest := by
        simp [fresh, old]
      rw [same]
      constructor
      · intro mem
        refine ⟨mem, ?_⟩
        simp only [stale, decide_eq_true_eq, decide_eq_false_iff_not] at old ⊢
        rcases List.mem_cons.mp mem with rfl | mem
        · exact old
        · have later := ordered.1 s mem
          omega
      · exact And.left

theorem fresh_suffix (window now : Nat) (stamps : List Nat) : fresh window now stamps <:+ stamps :=
  List.dropWhile_suffix _

/-- Nothing at or after an instant still inside the window is popped. -/
theorem countP_fresh {stamps : List Nat} {t : Nat} (past : ∀ s ∈ stamps, s ≤ now)
    (inside : now < t + window) :
    (fresh window now stamps).countP (t ≤ ·) = stamps.countP (t ≤ ·) := by
  induction stamps with
  | nil => rfl
  | cons first rest ih =>
    by_cases old : stale window now first = true
    · have same : fresh window now (first :: rest) = fresh window now rest := by
        simp [fresh, old]
      have early : ¬ t ≤ first := by
        have := past first List.mem_cons_self
        simp only [stale, decide_eq_true_eq] at old
        omega
      rw [same, ih fun s mem => past s (List.mem_cons_of_mem _ mem),
        List.countP_cons_of_neg (by simpa using early)]
    · have same : fresh window now (first :: rest) = first :: rest := by
        simp [fresh, old]
      rw [same]

/-- An entry as the table holds it at an instant. -/
structure Entry.Sound (entry : Entry) (nextSeq now : Nat) : Prop where
  below : entry.seq < nextSeq
  some : entry.stamps ≠ []
  ordered : entry.stamps.Pairwise (· ≤ ·)
  past : ∀ s ∈ entry.stamps, s ≤ now

/-- What holds of the window between two calls. -/
structure SlidingWindow.Sound (w : SlidingWindow) (now : Nat) : Prop where
  limit : 0 < w.limit
  maxKeys : 0 < w.maxKeys
  paired : Paired w.recency w.entries
  room : w.recency.length ≤ w.maxKeys
  entry : ∀ key e, w.entries.lookup key = some e → e.Sound w.nextSeq now
  recent : ∀ key e other d, w.entries.lookup key = some e → w.entries.lookup other = some d →
    e.seq < d.seq → ∀ s ∈ e.stamps.getLast?, ∀ t ∈ d.stamps.getLast?, s ≤ t

theorem sound_new (limit window maxKeys now : Nat) : (new limit window maxKeys).Sound now where
  limit := by simp [new]
  maxKeys := by simp [new]
  paired := ⟨by simp [new], List.Pairwise.nil⟩
  room := by simp [new]
  entry := by simp [new]
  recent := by simp [new]

theorem Entry.Sound.later {entry : Entry} {nextSeq later : Nat} (h : entry.Sound nextSeq now)
    (after : now ≤ later) : entry.Sound nextSeq later where
  below := h.below
  some := h.some
  ordered := h.ordered
  past s mem := le_trans (h.past s mem) after

theorem SlidingWindow.Sound.later {w : SlidingWindow} {later : Nat} (h : w.Sound now)
    (after : now ≤ later) : w.Sound later where
  limit := h.limit
  maxKeys := h.maxKeys
  paired := h.paired
  room := h.room
  entry key e found := (h.entry key e found).later after
  recent := h.recent

/-- A call of `check`, by what it does to the table: refused, a held key counted again, or a new
key after room was made for it. -/
theorem check_cases (w : SlidingWindow) (key : String) (now : Nat) :
    (∃ e, w.entries.lookup key = some e ∧ w.limit ≤ (fresh w.window now e.stamps).length ∧
      (w.check key now).2.allowed = false ∧
      (w.check key now).1 =
        { w with entries := w.entries.insert key ⟨fresh w.window now e.stamps, e.seq⟩ }) ∨
    (∃ e, w.entries.lookup key = some e ∧ (fresh w.window now e.stamps).length < w.limit ∧
      (w.check key now).2.allowed = true ∧
      (w.check key now).1 =
        { w with
          nextSeq := (w.nextSeq + 1) % 2 ^ 64
          recency := Maps.insert w.nextSeq key (Maps.remove e.seq w.recency)
          entries := w.entries.insert key ⟨fresh w.window now e.stamps ++ [now], w.nextSeq⟩ }) ∨
    (w.entries.lookup key = none ∧ (w.check key now).2.allowed = true ∧
      ((w.makeRoom now).entries.lookup key = none → (w.check key now).1 =
        { w.makeRoom now with
          nextSeq := ((w.makeRoom now).nextSeq + 1) % 2 ^ 64
          recency := Maps.insert (w.makeRoom now).nextSeq key (w.makeRoom now).recency
          entries := (w.makeRoom now).entries.insert key ⟨[now], (w.makeRoom now).nextSeq⟩ })) := by
  cases found : w.entries.lookup key with
  | some e =>
    by_cases full : w.limit ≤ (fresh w.window now e.stamps).length
    · left
      refine ⟨e, rfl, full, ?_, ?_⟩ <;> simp [check, found, full]
    · right
      left
      refine ⟨e, rfl, by omega, ?_, ?_⟩ <;>
        simp [check, found, full, record, AList.lookup_insert, AList.insert_insert]
  | none =>
    right
    right
    refine ⟨rfl, ?_, ?_⟩
    · simp only [check, found, record]
      split <;> rfl
    · intro free
      simp [check, found, record, free]

theorem Forgets.trans {recency kept last gone more : List (Nat × String)}
    {entries left final : AList fun _ : String => Entry}
    (first : Forgets recency entries gone kept left)
    (second : Forgets kept left more last final) :
    Forgets recency entries (gone ++ more) last final := by
  refine ⟨by rw [first.split, second.split, List.append_assoc], second.paired, ?_⟩
  intro key
  rw [second.lookup, first.lookup, List.map_append]
  by_cases later : key ∈ more.map Prod.snd
  · rw [if_pos later, if_pos (List.mem_append_right _ later)]
  · rw [if_neg later]
    by_cases earlier : key ∈ gone.map Prod.snd
    · rw [if_pos earlier, if_pos (List.mem_append_left _ earlier)]
    · have neither : key ∉ gone.map Prod.snd ++ more.map Prod.snd := by
        rw [List.mem_append]
        exact not_or.mpr ⟨earlier, later⟩
      rw [if_neg earlier, if_neg neither]

theorem expired_eq_false {e : Entry} :
    e.expired window now = false ↔ ∃ s ∈ e.stamps.getLast?, stale window now s = false := by
  unfold Entry.expired
  cases e.stamps.getLast? <;> simp

/-- Least recent first, so once the first key is inside its window every key is. -/
theorem live_of_first {w : SlidingWindow} (h : w.Sound now) {r : Nat × String}
    (head : w.recency.head? = some r) {e : Entry} (found : w.entries.lookup r.2 = some e)
    (live : e.expired w.window now = false) {key : String} {d : Entry}
    (held : w.entries.lookup key = some d) : d.expired w.window now = false := by
  obtain ⟨rest, split⟩ : ∃ rest, w.recency = r :: rest := by
    cases recency : w.recency with
    | nil =>
      rw [recency] at head
      cases head
    | cons first rest =>
      rw [recency] at head
      cases head
      exact ⟨rest, rfl⟩
  have mem : (d.seq, key) ∈ w.recency := (h.paired.index _ _).mpr ⟨d, held, rfl⟩
  have least : r ∈ w.recency := by simp [split]
  obtain ⟨e', again, seq⟩ := (h.paired.index r.1 r.2).mp least
  rw [found] at again
  cases again
  rw [split, List.mem_cons] at mem
  rcases mem with rfl | mem
  · rw [found] at held
    cases held
    exact live
  · have sorted := h.paired.sorted
    rw [split, Maps.Sorted, List.pairwise_cons] at sorted
    have less := sorted.1 _ mem
    obtain ⟨s, last, new⟩ := expired_eq_false.mp live
    obtain ⟨t, back⟩ : ∃ t, d.stamps.getLast? = some t :=
      Option.ne_none_iff_exists'.mp fun none =>
        (h.entry key d held).some (List.getLast?_eq_none_iff.mp none)
    have order := h.recent r.2 e key d found held (by rw [seq]; exact less) s last t back
    refine expired_eq_false.mpr ⟨t, back, ?_⟩
    simp only [stale, decide_eq_false_iff_not] at new ⊢
    omega

@[simp] theorem makeRoom_limit (w : SlidingWindow) : (w.makeRoom now).limit = w.limit := by
  unfold makeRoom
  split <;> rfl

@[simp] theorem makeRoom_window (w : SlidingWindow) : (w.makeRoom now).window = w.window := by
  unfold makeRoom
  split <;> rfl

@[simp] theorem makeRoom_maxKeys (w : SlidingWindow) : (w.makeRoom now).maxKeys = w.maxKeys := by
  unfold makeRoom
  split <;> rfl

@[simp] theorem makeRoom_nextSeq (w : SlidingWindow) : (w.makeRoom now).nextSeq = w.nextSeq := by
  unfold makeRoom
  split <;> rfl

/-- Room is made by forgetting least recent keys, and one inside its window only when they all are
and the table is full. -/
theorem makeRoom_spec {w : SlidingWindow} (h : w.Sound now) :
    ∃ gone, Forgets w.recency w.entries gone (w.makeRoom now).recency (w.makeRoom now).entries ∧
      (w.makeRoom now).recency.length < w.maxKeys ∧
      ∀ r ∈ gone, ∀ e, w.entries.lookup r.2 = some e → e.expired w.window now = false →
        w.recency.length = w.maxKeys ∧
          ∀ key d, w.entries.lookup key = some d → d.expired w.window now = false := by
  have sized := h.paired.sized
  unfold makeRoom
  by_cases free : w.entries.keys.length < w.maxKeys
  · rw [if_pos free]
    exact ⟨[], .none h.paired, by omega, by simp⟩
  · rw [if_neg free]
    obtain ⟨swept, sweeps, old, first⟩ := sweep_spec w.window now h.paired
    obtain ⟨cut, drops, fits, full⟩ := dropOldest_spec sweeps.paired h.maxKeys
    refine ⟨swept ++ cut, sweeps.trans drops, fits, ?_⟩
    intro r mem e found live
    rcases List.mem_append.mp mem with mem | mem
    · rw [old r mem e found] at live
      cases live
    · have long := full (List.ne_nil_of_mem mem)
      have parts := congrArg List.length sweeps.split
      rw [List.length_append] at parts
      have room := h.room
      have none : swept = [] := List.length_eq_zero_iff.mp (by omega)
      have whole : w.recency = (sweep w.window now w.recency w.entries).1 := by
        have split := sweeps.split
        rw [none] at split
        exact split
      refine ⟨by rw [← whole] at long; omega, ?_⟩
      intro key d held
      have mem' : r ∈ w.recency := by
        rw [whole, drops.split]
        exact List.mem_append_left _ mem
      cases head : w.recency.head? with
      | none =>
        rw [List.head?_eq_none_iff] at head
        rw [head] at mem'
        cases mem'
      | some first' =>
        obtain ⟨d', look, new⟩ := first first' (by rw [← whole, head]; rfl)
        exact live_of_first h head look new held

/-- Forgetting keys keeps the table sound. -/
theorem SlidingWindow.Sound.forget {w w' : SlidingWindow} {gone : List (Nat × String)}
    (h : w.Sound now) (forgets : Forgets w.recency w.entries gone w'.recency w'.entries)
    (limit : w'.limit = w.limit) (maxKeys : w'.maxKeys = w.maxKeys)
    (nextSeq : w'.nextSeq = w.nextSeq) : w'.Sound now := by
  have kept : ∀ key e, w'.entries.lookup key = some e → w.entries.lookup key = some e := by
    intro key e found
    rw [forgets.lookup] at found
    by_cases lost : key ∈ gone.map Prod.snd
    · rw [if_pos lost] at found
      cases found
    · rw [if_neg lost] at found
      exact found
  have shorter := congrArg List.length forgets.split
  rw [List.length_append] at shorter
  have room := h.room
  constructor
  · rw [limit]
    exact h.limit
  · rw [maxKeys]
    exact h.maxKeys
  · exact forgets.paired
  · omega
  · intro key e found
    rw [nextSeq]
    exact h.entry key e (kept key e found)
  · intro key e other d found held
    exact h.recent key e other d (kept key e found) (kept other d held)

/-- A request let through: its key becomes the most recent one. -/
theorem sound_arrive {w w' : SlidingWindow} {key : String} (stamps : List Nat)
    (others : List (Nat × String)) (h : w.Sound now)
    (rest : ∀ seq k, (seq, k) ∈ others ↔ k ≠ key ∧ ∃ d, w.entries.lookup k = some d ∧ d.seq = seq)
    (sorted : Maps.Sorted others) (room : others.length < w.maxKeys)
    (ordered : stamps.Pairwise (· ≤ ·)) (past : ∀ s ∈ stamps, s ≤ now)
    (bound : w.nextSeq + 1 < 2 ^ 64)
    (eq : w' = { w with
      nextSeq := (w.nextSeq + 1) % 2 ^ 64
      recency := Maps.insert w.nextSeq key others
      entries := w.entries.insert key ⟨stamps ++ [now], w.nextSeq⟩ }) : w'.Sound now := by
  subst eq
  have above : ∀ r ∈ others, r.1 < w.nextSeq := by
    rintro ⟨seq, k⟩ mem
    obtain ⟨-, d, found, rfl⟩ := (rest seq k).mp mem
    exact (h.entry k d found).below
  constructor
  · exact h.limit
  · exact h.maxKeys
  · exact Paired.arrive (e := ⟨stamps ++ [now], w.nextSeq⟩) rest sorted above
  · show (Maps.insert w.nextSeq key others).length ≤ w.maxKeys
    rw [Maps.insert_above above, List.length_append]
    exact room
  · intro k e found
    show e.Sound ((w.nextSeq + 1) % 2 ^ 64) now
    rw [Nat.mod_eq_of_lt bound]
    by_cases same : k = key
    · subst same
      rw [AList.lookup_insert] at found
      cases found
      constructor
      · exact Nat.lt_succ_self _
      · simp
      · refine List.pairwise_append.mpr ⟨ordered, List.pairwise_singleton _ _, ?_⟩
        intro s mem t last
        rw [List.mem_singleton.mp last]
        exact past s mem
      · intro s mem
        rcases List.mem_append.mp mem with mem | mem
        · exact past s mem
        · exact le_of_eq (List.mem_singleton.mp mem)
    · rw [AList.lookup_insert_ne same] at found
      have held := h.entry k e found
      exact ⟨Nat.lt_succ_of_lt held.below, held.some, held.ordered, held.past⟩
  · intro k e other d found held less s last t back
    by_cases same : other = key
    · subst same
      rw [AList.lookup_insert] at held
      cases held
      rw [List.getLast?_append_of_ne_nil _ (List.cons_ne_nil _ _)] at back
      cases back
      by_cases mine : k = other
      · subst mine
        rw [AList.lookup_insert] at found
        cases found
        exact absurd less (lt_irrefl _)
      · rw [AList.lookup_insert_ne mine] at found
        exact (h.entry k e found).past s (List.mem_of_getLast? last)
    · rw [AList.lookup_insert_ne same] at held
      by_cases mine : k = key
      · subst mine
        rw [AList.lookup_insert] at found
        cases found
        have below := (h.entry other d held).below
        exact absurd less (lt_asymm below)
      · rw [AList.lookup_insert_ne mine] at found
        exact h.recent k e other d found held less s last t back

/-- A held key whose stamps are cut at the front. -/
theorem sound_pop {w : SlidingWindow} {key : String} {e : Entry} (h : w.Sound now)
    (found : w.entries.lookup key = some e) {stamps : List Nat} (suffix : stamps <:+ e.stamps)
    (some : stamps ≠ []) :
    ({ w with entries := w.entries.insert key ⟨stamps, e.seq⟩ } : SlidingWindow).Sound now := by
  have held := h.entry key e found
  have last : stamps.getLast? = e.stamps.getLast? := by
    obtain ⟨popped, split⟩ := suffix
    rw [← split, List.getLast?_append_of_ne_nil _ some]
  have shown : ∀ k d, (w.entries.insert key ⟨stamps, e.seq⟩).lookup k = Option.some d →
      ∃ d', w.entries.lookup k = Option.some d' ∧ d'.seq = d.seq ∧
        d.stamps.getLast? = d'.stamps.getLast? := by
    intro k d look
    by_cases same : k = key
    · subst same
      rw [AList.lookup_insert] at look
      cases look
      exact ⟨e, found, rfl, last⟩
    · rw [AList.lookup_insert_ne same] at look
      exact ⟨d, look, rfl, rfl⟩
  constructor
  · exact h.limit
  · exact h.maxKeys
  · refine ⟨?_, h.paired.sorted⟩
    intro seq k
    rw [h.paired.index]
    by_cases same : k = key
    · subst same
      rw [AList.lookup_insert, found]
      simp
    · rw [AList.lookup_insert_ne same]
  · exact h.room
  · intro k d look
    by_cases same : k = key
    · subst same
      rw [AList.lookup_insert] at look
      cases look
      exact ⟨held.below, some, held.ordered.sublist suffix.sublist,
        fun s mem => held.past s (suffix.sublist.subset mem)⟩
    · rw [AList.lookup_insert_ne same] at look
      exact h.entry k d look
  · intro k d other d' look look' less s mem t mem'
    obtain ⟨f, found', seq, back⟩ := shown k d look
    obtain ⟨f', found'', seq', back'⟩ := shown other d' look'
    exact h.recent k f other f' found' found'' (by rw [seq, seq']; exact less) s
      (by rw [← back]; exact mem) t (by rw [← back']; exact mem')

theorem sound_check {w : SlidingWindow} (h : w.Sound now) (bound : w.nextSeq + 1 < 2 ^ 64)
    (key : String) : (w.check key now).1.Sound now := by
  rcases check_cases w key now with ⟨e, found, full, -, eq⟩ | ⟨e, found, -, -, eq⟩ | ⟨free, -, eq⟩
  · rw [eq]
    refine sound_pop h found (fresh_suffix w.window now e.stamps) ?_
    intro none
    have limit := h.limit
    rw [none, List.length_nil] at full
    omega
  · have held := h.entry key e found
    have suffix := fresh_suffix w.window now e.stamps
    refine sound_arrive (fresh w.window now e.stamps) (Maps.remove e.seq w.recency) h ?_
      (h.paired.sorted.remove _) ?_
      (held.ordered.sublist suffix.sublist) (fun s mem => held.past s (suffix.sublist.subset mem))
      bound eq
    · intro seq k
      rw [Maps.mem_remove, h.paired.index]
      constructor
      · rintro ⟨⟨d, look, rfl⟩, other⟩
        refine ⟨?_, d, look, rfl⟩
        rintro rfl
        rw [found] at look
        cases look
        exact other rfl
      · rintro ⟨other, d, look, rfl⟩
        refine ⟨⟨d, look, rfl⟩, ?_⟩
        intro same
        have nodup := h.paired.sorted.nodup
        have mine : (e.seq, key) ∈ w.recency := (h.paired.index _ _).mpr ⟨e, found, rfl⟩
        have yours : (d.seq, k) ∈ w.recency := (h.paired.index _ _).mpr ⟨d, look, rfl⟩
        exact other (congrArg Prod.snd (List.inj_on_of_nodup_map nodup yours mine same))
    · have mine : (e.seq, key) ∈ w.recency := (h.paired.index _ _).mpr ⟨e, found, rfl⟩
      have less : (Maps.remove e.seq w.recency).length < w.recency.length := by
        refine List.length_filter_lt_length_iff_exists.mpr ⟨(e.seq, key), mine, by simp⟩
      exact lt_of_lt_of_le less h.room
  · obtain ⟨gone, forgets, room, -⟩ := makeRoom_spec h
    have sound : (w.makeRoom now).Sound now := h.forget forgets (by simp) (by simp) (by simp)
    have absent : (w.makeRoom now).entries.lookup key = none := by
      rw [forgets.lookup, free, ite_self]
    refine sound_arrive [] (w.makeRoom now).recency sound ?_
      sound.paired.sorted (by simpa using room) List.Pairwise.nil (by simp) (by simpa using bound)
      (eq absent)
    intro seq k
    rw [sound.paired.index]
    constructor
    · rintro ⟨d, look, rfl⟩
      refine ⟨?_, d, look, rfl⟩
      rintro rfl
      rw [absent] at look
      cases look
    · exact And.right

theorem mem_check {w : SlidingWindow} (h : w.Sound now) {key other : String}
    (lost : other ∈ w.entries ∧ other ∉ (w.check key now).1.entries) :
    ∃ gone, Forgets w.recency w.entries gone (w.makeRoom now).recency (w.makeRoom now).entries ∧
      other ∈ gone.map Prod.snd := by
  obtain ⟨held, absent⟩ := lost
  rcases check_cases w key now with ⟨e, -, -, -, eq⟩ | ⟨e, -, -, -, eq⟩ | ⟨free, -, eq⟩
  · rw [eq] at absent
    exact absurd (AList.mem_insert _ |>.mpr (.inr held)) absent
  · rw [eq] at absent
    exact absurd (AList.mem_insert _ |>.mpr (.inr held)) absent
  · obtain ⟨gone, forgets, -, -⟩ := makeRoom_spec h
    refine ⟨gone, forgets, ?_⟩
    rw [eq (by rw [forgets.lookup, free, ite_self])] at absent
    by_contra kept
    apply absent
    refine AList.mem_insert _ |>.mpr (.inr ?_)
    rw [← AList.lookup_isSome, forgets.lookup, if_neg kept, AList.lookup_isSome]
    exact held

/-- A key inside its window is forgotten only when the table is full of such keys. -/
theorem evicts_live {w : SlidingWindow} {c : Call} {key : String} {e : Entry}
    (h : w.Sound c.now) (evicts : w.Evicts c key) (found : w.entries.lookup key = some e)
    (live : e.expired w.window c.now = false) :
    w.entries.keys.length = w.maxKeys ∧
      ∀ other d, w.entries.lookup other = some d → d.expired w.window c.now = false := by
  obtain ⟨gone, forgets, lost⟩ := mem_check h evicts
  obtain ⟨⟨seq, _⟩, mem, rfl⟩ := List.mem_map.mp lost
  obtain ⟨gone', forgets', -, spec⟩ := makeRoom_spec h
  have same : gone = gone' :=
    List.append_cancel_right (forgets.split.symm.trans forgets'.split)
  rw [h.paired.sized]
  exact spec _ (same ▸ mem) e found live

/-- What a window is built with. -/
def SlidingWindow.settings (w : SlidingWindow) : Nat × Nat × Nat := (w.limit, w.window, w.maxKeys)

theorem record_settings (w : SlidingWindow) (key : String) (now : Nat) :
    (w.record key now).1.settings = w.settings ∧ (w.record key now).1.nextSeq ≤ w.nextSeq + 1 := by
  unfold record
  cases w.entries.lookup key with
  | none => exact ⟨rfl, Nat.mod_le _ _⟩
  | some e => exact ⟨rfl, Nat.mod_le _ _⟩

theorem check_settings (w : SlidingWindow) (key : String) (now : Nat) :
    (w.check key now).1.settings = w.settings ∧ (w.check key now).1.nextSeq ≤ w.nextSeq + 1 := by
  unfold check
  cases w.entries.lookup key with
  | none =>
    obtain ⟨same, next⟩ := record_settings (w.makeRoom now) key now
    rw [makeRoom_nextSeq] at next
    refine ⟨same.trans ?_, next⟩
    simp [settings]
  | some e =>
    dsimp only
    split
    · exact ⟨rfl, Nat.le_succ _⟩
    · exact record_settings
        { w with entries := w.entries.insert key ⟨fresh w.window now e.stamps, e.seq⟩ } key now

namespace SlidingWindow

variable (w : SlidingWindow)

@[simp] theorem after_nil : w.after [] = w := rfl

@[simp] theorem after_cons (c : Call) (calls : List Call) :
    w.after (c :: calls) = (w.check c.key c.now).1.after calls := rfl

theorem after_append (xs ys : List Call) : w.after (xs ++ ys) = (w.after xs).after ys :=
  List.foldl_append

theorem after_settings (calls : List Call) : (w.after calls).settings = w.settings := by
  induction calls generalizing w with
  | nil => rfl
  | cons c rest ih => rw [after_cons, ih, (check_settings w c.key c.now).1]

theorem after_nextSeq (calls : List Call) :
    (w.after calls).nextSeq ≤ w.nextSeq + calls.length := by
  induction calls generalizing w with
  | nil => exact Nat.le_refl _
  | cons c rest ih =>
    have first := (check_settings w c.key c.now).2
    have later := ih (w.check c.key c.now).1
    rw [after_cons, List.length_cons]
    omega

variable {w} {start : Nat}

/-- The table stays sound along calls whose instants never go back. -/
theorem Sound.after {calls : List Call} (h : w.Sound start)
    (ordered : calls.Pairwise fun a b => a.now ≤ b.now) (later : ∀ c ∈ calls, start ≤ c.now)
    (bound : w.nextSeq + calls.length < 2 ^ 64) {now : Nat} (reached : start ≤ now)
    (past : ∀ c ∈ calls, c.now ≤ now) : (w.after calls).Sound now := by
  induction calls generalizing w start with
  | nil => exact h.later reached
  | cons c rest ih =>
    rw [List.pairwise_cons] at ordered
    rw [List.length_cons] at bound
    have seq := (check_settings w c.key c.now).2
    have sound := h.later (later c List.mem_cons_self)
    rw [after_cons]
    exact ih (sound_check sound (by omega) c.key) ordered.2 ordered.1 (by omega)
      (past c List.mem_cons_self) fun d mem => past d (List.mem_cons_of_mem c mem)

/-- The calls before a call of a run leave a sound table at that call's instant. -/
theorem Sound.before {calls before rest : List Call} {c : Call} (h : w.Sound start)
    (ordered : calls.Pairwise fun a b => a.now ≤ b.now) (later : ∀ c ∈ calls, start ≤ c.now)
    (bound : w.nextSeq + calls.length < 2 ^ 64) (split : calls = before ++ c :: rest) :
    (w.after before).Sound c.now ∧ (w.after before).nextSeq + 1 < 2 ^ 64 := by
  subst split
  rw [List.pairwise_append] at ordered
  rw [List.length_append, List.length_cons] at bound
  have seq := after_nextSeq w before
  refine ⟨h.after ordered.1 (fun d mem => later d (List.mem_append_left _ mem)) (by omega)
    (later c (by simp)) fun d mem => ordered.2.2 d mem c List.mem_cons_self, by omega⟩

end SlidingWindow

/-- The instants of a key's calls. -/
def times (key : String) (calls : List Call) : List Nat :=
  (calls.filter fun c => c.key = key).map (·.now)

theorem times_append (key : String) (xs ys : List Call) :
    times key (xs ++ ys) = times key xs ++ times key ys := by
  simp [times]

/-- What one call lets through. -/
def SlidingWindow.grants (w : SlidingWindow) (c : Call) : List Call :=
  if (w.check c.key c.now).2.allowed then [c] else []

theorem granted_cons (w : SlidingWindow) (c : Call) (calls : List Call) :
    w.granted (c :: calls) = w.grants c ++ (w.check c.key c.now).1.granted calls := by
  rw [granted, grants]
  split <;> rfl

/-- The stamps of every held key are instants it was let through at. -/
def Recorded (w : SlidingWindow) (calls : List Call) : Prop :=
  ∀ key e, w.entries.lookup key = some e → e.stamps.Sublist (times key calls)

theorem recorded_check {w : SlidingWindow} {calls : List Call} {c : Call} (h : w.Sound c.now)
    (recorded : Recorded w calls) : Recorded (w.check c.key c.now).1 (calls ++ w.grants c) := by
  have grown : ∀ key e, w.entries.lookup key = some e →
      e.stamps.Sublist (times key (calls ++ w.grants c)) := by
    intro key e found
    rw [times_append]
    exact (recorded key e found).trans (List.sublist_append_left _ _)
  intro key e found
  rcases check_cases w c.key c.now with ⟨d, held, -, -, eq⟩ | ⟨d, held, -, yes, eq⟩ |
    ⟨free, yes, eq⟩
  · rw [eq] at found
    by_cases same : key = c.key
    · subst same
      rw [AList.lookup_insert] at found
      cases found
      exact (fresh_suffix _ _ _).sublist.trans (grown _ d held)
    · rw [AList.lookup_insert_ne same] at found
      exact grown key e found
  · rw [eq] at found
    by_cases same : key = c.key
    · subst same
      rw [AList.lookup_insert] at found
      cases found
      rw [times_append, grants, yes]
      refine List.Sublist.append ((fresh_suffix _ _ _).sublist.trans (recorded _ d held)) ?_
      simp [times]
    · rw [AList.lookup_insert_ne same] at found
      exact grown key e found
  · obtain ⟨gone, forgets, -, -⟩ := makeRoom_spec h
    rw [eq (by rw [forgets.lookup, free, ite_self])] at found
    by_cases same : key = c.key
    · subst same
      rw [AList.lookup_insert] at found
      cases found
      rw [times_append, grants, yes]
      refine (?_ : [c.now].Sublist _).trans (List.sublist_append_right _ _)
      simp [times]
    · rw [AList.lookup_insert_ne same, forgets.lookup] at found
      by_cases lost : key ∈ gone.map Prod.snd
      · rw [if_pos lost] at found
        cases found
      · rw [if_neg lost] at found
        exact grown key e found

theorem recorded_after {w : SlidingWindow} {start : Nat} {earlier calls : List Call}
    (h : w.Sound start) (recorded : Recorded w earlier)
    (ordered : calls.Pairwise fun a b => a.now ≤ b.now) (later : ∀ c ∈ calls, start ≤ c.now)
    (bound : w.nextSeq + calls.length < 2 ^ 64) :
    Recorded (w.after calls) (earlier ++ w.granted calls) := by
  induction calls generalizing w start earlier with
  | nil =>
    rw [granted, List.append_nil]
    exact recorded
  | cons c rest ih =>
    rw [List.pairwise_cons] at ordered
    rw [List.length_cons] at bound
    have seq := (check_settings w c.key c.now).2
    have sound := h.later (later c List.mem_cons_self)
    rw [granted_cons, ← List.append_assoc, after_cons]
    exact ih (sound_check sound (by omega) c.key) (recorded_check sound recorded) ordered.2
      ordered.1 (by omega)

/-- A refused call found the limit's worth of its key's requests inside the window. -/
theorem refused_full {w : SlidingWindow} {calls : List Call} {c : Call} (h : w.Sound c.now)
    (recorded : Recorded w calls) (refused : (w.check c.key c.now).2.allowed = false) :
    w.limit ≤ (times c.key calls).countP fun s => c.now - s < w.window := by
  rcases check_cases w c.key c.now with ⟨e, held, full, -, -⟩ | ⟨e, -, -, yes, -⟩ | ⟨-, yes, -⟩
  · have inside : ∀ s ∈ fresh w.window c.now e.stamps, decide (c.now - s < w.window) = true := by
      intro s mem
      have new := ((mem_fresh (h.entry _ e held).ordered s).mp mem).2
      simp only [stale, decide_eq_false_iff_not] at new
      simpa using new
    calc w.limit ≤ (fresh w.window c.now e.stamps).length := full
      _ = (fresh w.window c.now e.stamps).countP fun s => c.now - s < w.window :=
        (List.countP_eq_length.mpr inside).symm
      _ ≤ (times c.key calls).countP fun s => c.now - s < w.window :=
        ((fresh_suffix _ _ _).sublist.trans (recorded _ e held)).countP_le
  · rw [yes] at refused
    cases refused
  · rw [yes] at refused
    cases refused

/-- Of the instants a key was let through at, those that can still share a window with the next
one are among its stamps, and no window has held more than the limit. -/
structure Counted (w : SlidingWindow) (key : String) (clock : Nat) (passed : List Nat) : Prop where
  absent : w.entries.lookup key = none → passed = []
  held : ∀ e, w.entries.lookup key = some e → ∀ t, clock < t + w.window →
    passed.countP (t ≤ ·) ≤ e.stamps.countP (t ≤ ·)
  bound : ∀ t, passed.countP (fun s => t ≤ s ∧ s < t + w.window) ≤ w.limit

theorem Counted.same {w w' : SlidingWindow} {key : String} {clock : Nat} {passed : List Nat}
    (h : Counted w key clock passed) (settings : w'.settings = w.settings) (later : clock ≤ now)
    (same : w'.entries.lookup key = w.entries.lookup key) : Counted w' key now passed := by
  have limit : w'.limit = w.limit := congrArg Prod.fst settings
  have window : w'.window = w.window := congrArg (·.2.1) settings
  constructor
  · rw [same]
    exact h.absent
  · intro e found t inside
    rw [same] at found
    rw [window] at inside
    exact h.held e found t (by omega)
  · rw [limit, window]
    exact h.bound

/-- A call of the key: the stamps are cut, and the call is let through while there is room. -/
theorem Counted.grant {w w' : SlidingWindow} {key : String} {clock : Nat} {passed : List Nat}
    {e : Entry} (h : Counted w key clock passed) (kept : List Nat) (later : clock ≤ now)
    (settings : w'.settings = w.settings) (room : kept.length < w.limit)
    (counts : ∀ t, now < t + w.window → passed.countP (t ≤ ·) ≤ kept.countP (t ≤ ·))
    (found : w'.entries.lookup key = some e) (stamps : e.stamps = kept ++ [now]) :
    Counted w' key now (passed ++ [now]) := by
  have limit : w'.limit = w.limit := congrArg Prod.fst settings
  have window : w'.window = w.window := congrArg (·.2.1) settings
  have grown : ∀ t, now < t + w.window →
      (passed ++ [now]).countP (t ≤ ·) ≤ e.stamps.countP (t ≤ ·) := by
    intro t inside
    rw [stamps, List.countP_append, List.countP_append]
    exact Nat.add_le_add_right (counts t inside) _
  constructor
  · intro none
    rw [found] at none
    cases none
  · intro d found' t inside
    rw [found] at found'
    cases found'
    rw [window] at inside
    exact grown t inside
  · intro t
    rw [limit, window]
    by_cases inside : t ≤ now ∧ now < t + w.window
    · calc (passed ++ [now]).countP (fun s => t ≤ s ∧ s < t + w.window)
          ≤ (passed ++ [now]).countP (t ≤ ·) :=
            List.countP_mono_left fun s _ both => by
              simp only [decide_eq_true_eq] at both ⊢
              exact both.1
        _ ≤ e.stamps.countP (t ≤ ·) := grown t inside.2
        _ ≤ e.stamps.length := List.countP_le_length
        _ ≤ w.limit := by
          rw [stamps, List.length_append]
          exact room
    · rw [List.countP_append, List.countP_cons_of_neg (by simpa using inside), List.countP_nil]
      exact h.bound t

theorem counted_check {w : SlidingWindow} {key : String} {clock : Nat} {passed : List Nat}
    {c : Call} (h : w.Sound c.now) (counted : Counted w key clock passed)
    (later : clock ≤ c.now) (keeps : ¬ w.Evicts c key) :
    Counted (w.check c.key c.now).1 key c.now (passed ++ times key (w.grants c)) := by
  have settings := (check_settings w c.key c.now).1
  have pop : ∀ e, w.entries.lookup c.key = some e → ∀ t, c.now < t + w.window →
      (fresh w.window c.now e.stamps).countP (t ≤ ·) = e.stamps.countP (t ≤ ·) :=
    fun e found t inside => countP_fresh (h.entry _ e found).past inside
  rcases check_cases w c.key c.now with ⟨e, found, -, no, eq⟩ | ⟨e, found, room, yes, eq⟩ |
    ⟨free, yes, eq⟩
  · have nothing : times key (w.grants c) = [] := by simp [grants, no, times]
    rw [nothing, List.append_nil]
    by_cases same : key = c.key
    · subst same
      have look : (w.check c.key c.now).1.entries.lookup c.key =
          some ⟨fresh w.window c.now e.stamps, e.seq⟩ := by rw [eq, AList.lookup_insert]
      constructor
      · intro none
        rw [look] at none
        cases none
      · intro d found' t inside
        rw [look] at found'
        cases found'
        rw [eq] at inside
        have before := counted.held e found t (lt_of_le_of_lt later inside)
        rw [← pop e found t inside] at before
        exact before
      · rw [eq]
        exact counted.bound
    · exact counted.same settings later (by rw [eq, AList.lookup_insert_ne same])
  · by_cases same : key = c.key
    · subst same
      have one : times c.key (w.grants c) = [c.now] := by simp [grants, yes, times]
      rw [one]
      refine counted.grant (fresh w.window c.now e.stamps) later settings room ?_ 
        (by rw [eq, AList.lookup_insert]) rfl
      intro t inside
      rw [pop e found t inside]
      exact counted.held e found t (lt_of_le_of_lt later inside)
    · have nothing : times key (w.grants c) = [] := by
        simp [grants, yes, times, Ne.symm same]
      rw [nothing, List.append_nil]
      exact counted.same settings later (by rw [eq, AList.lookup_insert_ne same])
  · obtain ⟨gone, forgets, -, -⟩ := makeRoom_spec h
    have look := eq (by rw [forgets.lookup, free, ite_self])
    by_cases same : key = c.key
    · subst same
      have one : times c.key (w.grants c) = [c.now] := by simp [grants, yes, times]
      rw [one]
      have empty := counted.absent free
      refine counted.grant [] later settings h.limit ?_
        (by rw [look, AList.lookup_insert]) rfl
      intro t _
      rw [empty]
    · have nothing : times key (w.grants c) = [] := by
        simp [grants, yes, times, Ne.symm same]
      rw [nothing, List.append_nil]
      refine counted.same settings later ?_
      rw [look, AList.lookup_insert_ne same, forgets.lookup]
      by_cases lost : key ∈ gone.map Prod.snd
      · have absent : key ∉ w.entries := by
          intro held
          apply keeps
          refine ⟨held, ?_⟩
          rw [look, AList.mem_insert]
          rintro (again | there)
          · exact same again
          · rw [← AList.lookup_isSome, forgets.lookup, if_pos lost] at there
            cases there
        rw [if_pos lost, AList.lookup_eq_none.mpr absent]
      · rw [if_neg lost]

theorem counted_after {w : SlidingWindow} {key : String} {clock : Nat} {passed : List Nat}
    {calls : List Call} (h : w.Sound clock) (counted : Counted w key clock passed)
    (ordered : calls.Pairwise fun a b => a.now ≤ b.now) (later : ∀ c ∈ calls, clock ≤ c.now)
    (bound : w.nextSeq + calls.length < 2 ^ 64) (keeps : w.Keeps calls key) :
    ∃ last, Counted (w.after calls) key last (passed ++ times key (w.granted calls)) := by
  induction calls generalizing w clock passed with
  | nil => exact ⟨clock, by simpa [granted, times] using counted⟩
  | cons c rest ih =>
    rw [List.pairwise_cons] at ordered
    rw [List.length_cons] at bound
    have seq := (check_settings w c.key c.now).2
    have sound := h.later (later c List.mem_cons_self)
    have first := counted_check sound counted (later c List.mem_cons_self) (keeps [] c rest rfl)
    rw [granted_cons, times_append, ← List.append_assoc, after_cons]
    refine ih (sound_check sound (by omega) c.key) first ordered.2 ordered.1 (by omega) ?_
    intro before d more split
    have there := keeps (c :: before) d more (by rw [split, List.cons_append])
    rwa [after_cons] at there

/-- Along any calls whose instants never go back, the table and the recency index hold the same
keys, one to one and no more than the cap. A key that is not forgotten in between gets no more
than `limit` requests let through in any stretch `[t, t + window)`; a call is refused only when
`limit` earlier ones of its key lie within the window; and a key still inside its window is
forgotten only when the table is full and every key of it is inside its window. -/
theorem sliding_window (limit window maxKeys : Nat) (calls : List Call)
    (ordered : calls.Pairwise fun a b => a.now ≤ b.now) (bound : calls.length < 2 ^ 64) :
    let w := new limit window maxKeys
    (∀ seq key, (seq, key) ∈ (w.after calls).recency ↔
      ∃ e, (w.after calls).entries.lookup key = some e ∧ e.seq = seq) ∧
    ((w.after calls).recency.map Prod.fst).Nodup ∧
    ((w.after calls).recency.map Prod.snd).Nodup ∧
    (w.after calls).entries.keys.length ≤ max maxKeys 1 ∧
    (∀ key before middle rest, calls = before ++ (middle ++ rest) →
      (w.after before).Keeps middle key → ∀ t,
        (times key ((w.after before).granted middle)).countP
          (fun s => t ≤ s ∧ s < t + window) ≤ max limit 1) ∧
    (∀ before c rest, calls = before ++ c :: rest →
      ((w.after before).check c.key c.now).2.allowed = false →
        max limit 1 ≤ (times c.key (w.granted before)).countP fun s => c.now - s < window) ∧
    ∀ before c rest, calls = before ++ c :: rest → ∀ key e, (w.after before).Evicts c key →
      (w.after before).entries.lookup key = some e → e.expired window c.now = false →
        (w.after before).entries.keys.length = max maxKeys 1 ∧
          ∀ other d, (w.after before).entries.lookup other = some d →
            d.expired window c.now = false := by
  intro w
  have zero : w.nextSeq + calls.length < 2 ^ 64 := by simpa [w, new] using bound
  have start : w.Sound 0 := sound_new limit window maxKeys 0
  have late : ∀ c ∈ calls, 0 ≤ c.now := fun c _ => Nat.zero_le _
  have settings : ∀ cs, (w.after cs).limit = max limit 1 ∧ (w.after cs).window = window ∧
      (w.after cs).maxKeys = max maxKeys 1 := by
    intro cs
    have same := after_settings w cs
    exact ⟨congrArg Prod.fst same, congrArg (·.2.1) same, congrArg (·.2.2) same⟩
  obtain ⟨now, past⟩ : ∃ now, ∀ c ∈ calls, c.now ≤ now :=
    ⟨(calls.map (·.now)).sum, fun c mem => List.single_le_sum (by simp) _ (List.mem_map_of_mem mem)⟩
  have sound := start.after ordered late zero (Nat.zero_le now) past
  refine ⟨sound.paired.index, sound.paired.sorted.nodup, sound.paired.keys_nodup, ?_, ?_, ?_, ?_⟩
  · rw [sound.paired.sized, ← (settings calls).2.2]
    exact sound.room
  · intro key before middle rest split keeps t
    cases middle with
    | nil => simp [granted, times]
    | cons c more =>
      have split' : calls = before ++ c :: (more ++ rest) := split
      obtain ⟨sound, -⟩ := start.before ordered late zero split'
      have seq := after_nextSeq w before
      have long := zero
      rw [split'] at ordered long
      rw [List.length_append, List.length_cons, List.length_append] at long
      have inner := (List.pairwise_append.mp ordered).2.1
      rw [← List.cons_append, List.pairwise_append, List.pairwise_cons] at inner
      have none : Counted (w.after before) key c.now [] :=
        ⟨fun _ => rfl, fun _ _ _ _ => Nat.zero_le _, fun _ => Nat.zero_le _⟩
      have later : ∀ d ∈ c :: more, c.now ≤ d.now := by
        intro d mem
        rcases List.mem_cons.mp mem with rfl | mem
        · exact Nat.le_refl _
        · exact inner.1.1 d mem
      obtain ⟨last, counted⟩ := counted_after sound none (List.pairwise_cons.mpr inner.1) later
        (by rw [List.length_cons]; omega) keeps
      have same := after_settings (w.after before) (c :: more)
      have limit : ((w.after before).after (c :: more)).limit = (w.after before).limit :=
        congrArg Prod.fst same
      have width : ((w.after before).after (c :: more)).window = (w.after before).window :=
        congrArg (·.2.1) same
      have most := counted.bound t
      rw [limit, width, (settings before).1, (settings before).2.1] at most
      exact most
  · intro before c rest split refused
    obtain ⟨sound, -⟩ := start.before ordered late zero split
    have recorded : Recorded (w.after before) (w.granted before) := by
      subst split
      rw [List.pairwise_append] at ordered
      rw [List.length_append] at zero
      have none : Recorded w [] := by simp [Recorded, w, new]
      exact recorded_after start none ordered.1 (fun _ _ => Nat.zero_le _) (by omega)
    have full := refused_full sound recorded refused
    rwa [(settings before).1, (settings before).2.1] at full
  · intro before c rest split key e evicts found live
    obtain ⟨sound, -⟩ := start.before ordered late zero split
    rw [← (settings before).2.1] at live
    have full := evicts_live sound evicts found live
    rwa [(settings before).2.1, (settings before).2.2] at full

/-- One refused call: the request it refuses was preceded by another inside the window. -/
theorem sliding_window_refuses :
    max 1 1 ≤ (times "a" ((new 1 60 1).granted [⟨"a", 0⟩])).countP fun s => 10 - s < 60 :=
  (sliding_window 1 60 1 [⟨"a", 0⟩, ⟨"a", 10⟩] (by simp) (by simp)).2.2.2.2.2.1 [⟨"a", 0⟩]
    ⟨"a", 10⟩ [] rfl (by decide)

/-- A window of no length with one early key and `m` later requests of another. -/
def worn (m : Nat) : SlidingWindow where
  limit := 1
  window := 0
  maxKeys := 2
  entries := ((∅ : AList fun _ : String => Entry).insert "a" ⟨[0], 0⟩).insert "b" ⟨[0], m⟩
  recency := [(0, "a"), (m, "b")]
  nextSeq := (m + 1) % 2 ^ 64

theorem worn_check {m : Nat} (positive : 0 < m) (bound : m + 1 < 2 ^ 64) :
    ((worn m).check "b" 0).1 = worn (m + 1) := by
  have next : (m + 1) % 2 ^ 64 = m + 1 := Nat.mod_eq_of_lt bound
  have popped : fresh 0 0 [0] = [] := rfl
  have zero : 0 ≠ m := by omega
  simp only [check, worn, AList.lookup_insert, popped, record, AList.insert_insert, next]
  simp [Maps.remove, Maps.insert, zero]

theorem worn_after (m : Nat) (positive : 0 < m) (bound : m < 2 ^ 64) :
    (new 1 0 2).after (⟨"a", 0⟩ :: List.replicate m ⟨"b", 0⟩) = worn m := by
  induction m, positive using Nat.le_induction with
  | base => rfl
  | succ m positive ih =>
    rw [List.replicate_succ', ← List.cons_append, after_append, ih (by omega), after_cons,
      worn_check positive bound, after_nil]

/-- Two requests exactly a window apart are both let through, so a stretch that holds its two ends
can hold one more than the limit; and after `2 ^ 64` later requests a sequence comes up twice, and
the index loses a key that the table holds. -/
theorem closed_stretch_and_worn_index :
    (((new 1 60 1).granted [⟨"a", 0⟩, ⟨"a", 60⟩]).countP
        (fun c => c.key = "a" ∧ 0 ≤ c.now ∧ c.now ≤ 0 + 60) = 2 ∧
      (new 1 60 1).Keeps [⟨"a", 0⟩, ⟨"a", 60⟩] "a") ∧
    (((new 1 0 2).after (⟨"a", 0⟩ :: List.replicate (2 ^ 64) ⟨"b", 0⟩)).entries.lookup "a" =
        some ⟨[0], 0⟩ ∧
      (0, "a") ∉ ((new 1 0 2).after (⟨"a", 0⟩ :: List.replicate (2 ^ 64) ⟨"b", 0⟩)).recency) := by
  have last : (new 1 0 2).after (⟨"a", 0⟩ :: List.replicate (2 ^ 64) ⟨"b", 0⟩) =
      ((worn (2 ^ 64 - 1)).check "b" 0).1 := by
    have split : (2 : Nat) ^ 64 = (2 ^ 64 - 1) + 1 := by norm_num
    rw [split, List.replicate_succ', ← List.cons_append, after_append,
      worn_after _ (by norm_num) (by norm_num)]
    rfl
  refine ⟨⟨by decide, ?_⟩, ?_⟩
  · intro before c rest split
    rintro ⟨-, lost⟩
    apply lost
    rcases before with _ | ⟨first, _ | ⟨second, more⟩⟩
    · cases split
      decide
    · cases split
      decide
    · simp at split
  · rw [last]
    have popped : fresh 0 0 [0] = [] := rfl
    simp only [check, worn, AList.lookup_insert, popped, record, AList.insert_insert]
    exact ⟨rfl, by simp [Maps.remove, Maps.insert]⟩

end Hecks.Host.RateLimit
