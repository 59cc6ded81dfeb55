import Hecks.Heki.Files
import Hecks.Heki.Lines

/-! The store's file steps with a crash between any two of them, and what a reopened store reads. -/
namespace Hecks.Heki

section

variable {σ : Type}

/-- Where a process is between its file steps. `todo` is what is left to project, `pending` the
entry being saved or deleted, which is acknowledged once it is projected. -/
inductive Phase (σ : Type) where
  | down
  | idle
  | projecting (todo : List (Entry σ)) (pending : Option (Entry σ))
  | staged (todo : List (Entry σ)) (records : Records σ) (pending : Option (Entry σ))
  | compacting (current : Records σ)
  | emptying (current : Records σ)

/-- The entry that has landed in the journal and is not yet acknowledged. -/
def Phase.pending : Phase σ → Option (Entry σ)
  | projecting _ pending => pending
  | staged _ _ pending => pending
  | _ => none

/-- `known` are the entries acknowledged so far, and those of earlier crashes that had landed. -/
structure Store (σ : Type) where
  disk : Disk
  memo : Option (Records σ)
  phase : Phase σ
  known : List (Entry σ)

/-- One file step of the process, or a crash: of an append after `bytes` of its line, or between
two steps with whatever is `left` of a temp file. -/
inductive Action (σ : Type) where
  | boot
  | look
  | save (id : String) (state : σ)
  | delete (id : String)
  | stage
  | publish
  | settle
  | compact
  | replace
  | empty
  | cut (e : Entry σ) (bytes : Nat)
  | crash (left : Option (List UInt8))

variable (c : Codec σ)

/-- `store`: the memoized records, read once. -/
def Store.held (s : Store σ) : Option (Records σ) := s.memo.or (c.read s.disk)

/-- The line of an entry lands and its projection begins. -/
def Store.append (s : Store σ) (e : Entry σ) : Store σ :=
  { s with disk := s.disk.append (c.line e), phase := .projecting [e] (some e) }

def Disk.staged (disk : Disk) (records : Records σ) : Disk :=
  { disk with temp := some (c.body records) }

/-- The temp file takes the snapshot's name. -/
def Disk.renamed (disk : Disk) : Disk := { disk with snapshot := disk.temp, temp := none }

/-- No step where a file is malformed, or from another phase. -/
def step (s : Store σ) : Action σ → Option (Store σ)
  | .boot =>
      match s.phase with
      | .down => (c.entries s.disk).map fun es => { s with phase := .projecting es none }
      | _ => none
  | .look =>
      match s.phase with
      | .idle => (s.held c).map fun records => { s with memo := some records }
      | _ => none
  | .save id state =>
      match s.phase with
      | .idle => some (s.append c (.save id state))
      | _ => none
  | .delete id =>
      match s.phase with
      | .idle => (s.held c).map fun records =>
          -- nothing is journaled for a record that is not there
          if (records.lookup id).isNone then { s with memo := some records }
          else { s with memo := some records }.append c (.delete id)
      | _ => none
  | .stage =>
      match s.phase with
      | .projecting (e :: todo) pending => (c.read s.disk).map fun current =>
          { s with disk := s.disk.staged c (replayLine current e),
                   phase := .staged todo (replayLine current e) pending }
      | _ => none
  | .publish =>
      match s.phase with
      | .staged todo records pending =>
          some { s with disk := s.disk.renamed, memo := some records,
                        phase := .projecting todo pending }
      | _ => none
  | .settle =>
      match s.phase with
      | .projecting [] pending =>
          some { s with phase := .idle, known := s.known ++ pending.toList }
      | _ => none
  | .compact =>
      match s.phase with
      | .idle => (c.read s.disk).map fun current =>
          { s with disk := s.disk.staged c current, phase := .compacting current }
      | _ => none
  | .replace =>
      match s.phase with
      | .compacting current => some { s with disk := s.disk.renamed, phase := .emptying current }
      | _ => none
  | .empty =>
      match s.phase with
      | .emptying current =>
          some { s with disk := { s.disk with journal := s.disk.journal.map fun _ => [] },
                        memo := some current, phase := .idle }
      | _ => none
  | .cut e bytes =>
      match s.phase with
      | .idle =>
          if bytes ≤ (c.line e).length then
            some { disk := s.disk.append ((c.line e).take bytes), memo := none, phase := .down,
                   known := s.known ++ if bytes = (c.line e).length then [e] else [] }
          else none
      | _ => none
  | .crash left =>
      some { disk := { s.disk with temp := left }, memo := none, phase := .down,
             known := s.known ++ s.phase.pending.toList }

/-- A store whose directory is empty. -/
def fresh : Store σ := ⟨⟨none, none, none⟩, none, .down, []⟩

def run (actions : List (Action σ)) (s : Store σ) : Option (Store σ) := actions.foldlM (step c) s

/-- The store reopens, and read now it holds exactly what is known, with at most the one entry in
addition that has landed and is not acknowledged. -/
def Durable (s : Store σ) : Prop :=
  (∃ es, c.entries s.disk = some es) ∧
    ∃ records, c.read s.disk = some records ∧
      (records.table = fold s.known (fun _ => none) ∨
        ∃ e, s.phase.pending = some e ∧ records.table = fold (s.known ++ [e]) fun _ => none)

/-- A crash leaves the whole of a line being appended or none of it. -/
def Action.Whole : Action σ → Prop
  | .cut e bytes => bytes = 0 ∨ bytes = (c.line e).length
  | _ => True

/-! ### What every state keeps -/

/-- What a phase says of the journal's entries and of the snapshot's table. -/
def Phase.Fits (disk : Disk) (es : List (Entry σ)) (base : String → Option σ) : Phase σ → Prop
  | down => True
  | idle => True
  | projecting todo _ => ∀ e ∈ todo, e ∈ es
  | staged todo records _ => (∀ e ∈ todo, e ∈ es) ∧ disk.temp = some (c.body records) ∧
      fold es records.table = fold es base
  | compacting current => disk.temp = some (c.body current) ∧ current.table = fold es base
  | emptying _ => base = fold es base

/-- The journal holds whole lines, the snapshot reads, and the journal replayed over the snapshot
is what is known with what is pending. -/
structure Sound (s : Store σ) (es : List (Entry σ)) (snapshot : Records σ) : Prop where
  journal : s.disk.journal.getD [] = c.written es
  reads : c.readSnapshot s.disk.snapshot = some snapshot
  content : fold es snapshot.table =
    fold (s.known ++ s.phase.pending.toList) fun _ => none
  phase : s.phase.Fits c s.disk es snapshot.table

end

section

variable {σ : Type} {c : Codec σ}

theorem fold_append (es ds : List (Entry σ)) (table : String → Option σ) :
    fold (es ++ ds) table = fold ds (fold es table) := by
  rw [fold, List.map_append, Replay.replay, List.foldl_append]
  rfl

/-- Replaying the whole journal over what already holds a part of it gives the same records. -/
theorem fold_over_part {es part : List (Entry σ)} (h : ∀ e ∈ part, e ∈ es)
    (table : String → Option σ) : fold es (fold part table) = fold es table := by
  apply Replay.replay_over_part
  intro d mem
  obtain ⟨e, inPart, rfl⟩ := List.mem_map.mp mem
  exact List.mem_map_of_mem (h e inPart)

theorem written_eq_nil {es : List (Entry σ)} (h : c.written es = []) : es = [] := by
  cases es with
  | nil => rfl
  | cons e es => simp [Codec.written, Codec.line] at h

theorem Codec.replayJournal_written {journal : Option (List UInt8)} {es : List (Entry σ)}
    (h : journal.getD [] = c.written es) (records : Records σ) :
    c.replayJournal records journal = some (es.foldl replayLine records) := by
  cases journal with
  | none =>
    rw [written_eq_nil h.symm]
    rfl
  | some data =>
    have same : data = c.written es := h
    rw [Codec.replayJournal, same, c.lines_written]
    exact c.replay_lines es records

theorem Codec.entries_of_written {disk : Disk} {es : List (Entry σ)}
    (h : disk.journal.getD [] = c.written es) : c.entries disk = some es := by
  cases journal : disk.journal with
  | none =>
    rw [journal] at h
    rw [Codec.entries, journal, written_eq_nil h.symm]
  | some data =>
    rw [journal] at h
    exact c.entries_written disk es (journal.trans (congrArg some h))

variable {s : Store σ} {es : List (Entry σ)} {snapshot : Records σ}

/-- A sound store reads as its journal replayed over its snapshot. -/
theorem Sound.read (h : Sound c s es snapshot) :
    c.read s.disk = some (es.foldl replayLine snapshot) ∧
      Records.table (es.foldl replayLine snapshot) = fold es snapshot.table := by
  constructor
  · rw [Codec.read, h.reads]
    exact c.replayJournal_written h.journal snapshot
  · exact table_foldl es snapshot

theorem Sound.durable (h : Sound c s es snapshot) : Durable c s := by
  obtain ⟨reads, table⟩ := h.read
  refine ⟨⟨es, Codec.entries_of_written h.journal⟩, _, reads, ?_⟩
  rw [table, h.content]
  cases pending : s.phase.pending with
  | none => exact Or.inl (by simp)
  | some e => exact Or.inr ⟨e, rfl, rfl⟩

/-- What lands in the journal is what is folded last. -/
theorem Sound.land (h : Sound c s es snapshot) (idle : s.phase.pending = none) (e : Entry σ) :
    (s.disk.append (c.line e)).journal.getD [] = c.written (es ++ [e]) ∧
      fold (es ++ [e]) snapshot.table = fold (s.known ++ [e]) fun _ => none := by
  constructor
  · simp [Disk.append, h.journal, Codec.written]
  · have content := h.content
    rw [idle, Option.toList_none, List.append_nil] at content
    rw [fold_append, content, ← fold_append]

theorem sound_fresh : Sound c fresh [] ∅ := by
  refine ⟨rfl, rfl, ?_, trivial⟩
  funext id
  rfl

theorem Sound.boot {js : List (Entry σ)} (h : Sound c s es snapshot) (down : s.phase = .down)
    (read : c.entries s.disk = some js) :
    Sound c { s with phase := .projecting js none } es snapshot := by
  have same : js = es := Option.some.inj (read.symm.trans (Codec.entries_of_written h.journal))
  have content := h.content
  rw [down] at content
  exact ⟨h.journal, h.reads, content, fun e mem => same ▸ mem⟩

theorem Sound.memoized (h : Sound c s es snapshot) (idle : s.phase = .idle)
    (memo : Option (Records σ)) : Sound c { s with memo := memo, phase := .idle } es snapshot := by
  have content := h.content
  rw [idle] at content
  exact ⟨h.journal, h.reads, content, trivial⟩

theorem Sound.append (h : Sound c s es snapshot) (idle : s.phase = .idle) (e : Entry σ) :
    Sound c (s.append c e) (es ++ [e]) snapshot := by
  obtain ⟨journal, content⟩ := h.land (by rw [idle]; rfl) e
  refine ⟨journal, h.reads, content, ?_⟩
  intro d mem
  exact List.mem_append_right _ mem

theorem Sound.stage {e : Entry σ} {todo : List (Entry σ)} {pending : Option (Entry σ)}
    {current : Records σ} (h : Sound c s es snapshot)
    (projecting : s.phase = .projecting (e :: todo) pending) (read : c.read s.disk = some current) :
    Sound c { s with disk := s.disk.staged c (replayLine current e),
                     phase := .staged todo (replayLine current e) pending } es snapshot := by
  obtain ⟨reads, table⟩ := h.read
  cases read.symm.trans reads
  have fits := h.phase
  have content := h.content
  rw [projecting] at fits content
  refine ⟨h.journal, h.reads, content, ?_, rfl, ?_⟩
  · intro d mem
    exact fits d (List.mem_cons_of_mem e mem)
  · -- the entry projected is one the journal replays again
    have again : Replay.apply (fold es snapshot.table) e.edit = fold (es ++ [e]) snapshot.table := by
      rw [fold_append]
      rfl
    rw [table_replayLine, table, again]
    apply fold_over_part
    intro d mem
    rcases List.mem_append.mp mem with mem | mem
    · exact mem
    · cases List.mem_singleton.mp mem
      exact fits e List.mem_cons_self

theorem Sound.publish {todo : List (Entry σ)} {records : Records σ} {pending : Option (Entry σ)}
    (h : Sound c s es snapshot) (staged : s.phase = .staged todo records pending) :
    Sound c { s with disk := s.disk.renamed, memo := some records,
                     phase := .projecting todo pending } es records.sorted := by
  have fits := h.phase
  have content := h.content
  rw [staged] at fits content
  obtain ⟨inJournal, temp, table⟩ := fits
  refine ⟨h.journal, ?_, ?_, inJournal⟩
  · show c.readSnapshot s.disk.temp = some records.sorted
    rw [temp]
    exact c.readSnapshot_body records
  · rw [table_sorted, table]
    exact content

theorem Sound.settle {pending : Option (Entry σ)} (h : Sound c s es snapshot)
    (projected : s.phase = .projecting [] pending) :
    Sound c { s with phase := .idle, known := s.known ++ pending.toList } es snapshot := by
  have content := h.content
  rw [projected] at content
  refine ⟨h.journal, h.reads, ?_, trivial⟩
  show fold es snapshot.table = fold (s.known ++ pending.toList ++ []) fun _ => none
  rw [List.append_nil]
  exact content

theorem Sound.compact {current : Records σ} (h : Sound c s es snapshot) (idle : s.phase = .idle)
    (read : c.read s.disk = some current) :
    Sound c { s with disk := s.disk.staged c current, phase := .compacting current } es
      snapshot := by
  obtain ⟨reads, table⟩ := h.read
  cases read.symm.trans reads
  have content := h.content
  rw [idle] at content
  exact ⟨h.journal, h.reads, content, rfl, table⟩

theorem Sound.replace {current : Records σ} (h : Sound c s es snapshot)
    (compacting : s.phase = .compacting current) :
    Sound c { s with disk := s.disk.renamed, phase := .emptying current } es
      current.sorted := by
  have fits := h.phase
  have content := h.content
  rw [compacting] at fits content
  obtain ⟨temp, table⟩ := fits
  have folded : fold es current.table = current.table := by
    rw [table]
    exact fold_over_part (fun e mem => mem) snapshot.table
  refine ⟨h.journal, ?_, ?_, ?_⟩
  · show c.readSnapshot s.disk.temp = some current.sorted
    rw [temp]
    exact c.readSnapshot_body current
  · rw [table_sorted, folded, table]
    exact content
  · show Records.table current.sorted = fold es (Records.table current.sorted)
    rw [table_sorted, folded]

theorem Sound.empty {current : Records σ} (h : Sound c s es snapshot)
    (emptying : s.phase = .emptying current) :
    Sound c { s with disk := { s.disk with journal := s.disk.journal.map fun _ => [] },
                     memo := some current, phase := .idle } [] snapshot := by
  have fits := h.phase
  have content := h.content
  rw [emptying] at fits content
  refine ⟨?_, h.reads, ?_, trivial⟩
  · show (s.disk.journal.map fun _ => []).getD [] = []
    cases s.disk.journal with
    | none => rfl
    | some data => rfl
  · show snapshot.table = _
    rw [show snapshot.table = fold es snapshot.table from fits]
    exact content

theorem Sound.crash (h : Sound c s es snapshot) (left : Option (List UInt8)) :
    Sound c { disk := { s.disk with temp := left }, memo := none, phase := .down,
              known := s.known ++ s.phase.pending.toList } es snapshot := by
  refine ⟨h.journal, h.reads, ?_, trivial⟩
  show fold es snapshot.table = fold (s.known ++ s.phase.pending.toList ++ []) fun _ => none
  rw [List.append_nil]
  exact h.content

theorem Sound.cut {e : Entry σ} {bytes : Nat} (h : Sound c s es snapshot) (idle : s.phase = .idle)
    (whole : bytes = 0 ∨ bytes = (c.line e).length) :
    ∃ es', Sound c { disk := s.disk.append ((c.line e).take bytes), memo := none, phase := .down,
                     known := s.known ++ if bytes = (c.line e).length then [e] else [] } es'
      snapshot := by
  have nonempty : (c.line e).length ≠ 0 := by simp [Codec.line]
  rcases whole with rfl | rfl
  · have content := h.content
    rw [idle] at content
    refine ⟨es, ?_, h.reads, ?_, trivial⟩
    · simp [Disk.append, h.journal]
    · rw [if_neg nonempty.symm]
      simpa [Phase.pending] using content
  · obtain ⟨journal, content⟩ := h.land (by rw [idle]; rfl) e
    refine ⟨es ++ [e], ?_, h.reads, ?_, trivial⟩
    · rw [List.take_length]
      exact journal
    · rw [if_pos rfl]
      simpa [Phase.pending] using content

/-- Each step keeps the store sound, over some journal and snapshot. -/
theorem step_sound {t : Store σ} {a : Action σ} (whole : a.Whole c) (stepped : step c s a = some t)
    (h : Sound c s es snapshot) : ∃ es' snapshot', Sound c t es' snapshot' := by
  cases a with
  | crash left =>
    cases stepped
    exact ⟨es, snapshot, h.crash left⟩
  | boot =>
    cases phase : s.phase <;> simp only [step, phase] at stepped <;> try cases stepped
    obtain ⟨js, read, rfl⟩ := Option.map_eq_some_iff.mp stepped
    exact ⟨es, snapshot, h.boot phase read⟩
  | look =>
    cases phase : s.phase <;> simp only [step, phase] at stepped <;> try cases stepped
    obtain ⟨records, -, rfl⟩ := Option.map_eq_some_iff.mp stepped
    exact ⟨es, snapshot, h.memoized phase (some records)⟩
  | save id state =>
    cases phase : s.phase <;> simp only [step, phase] at stepped <;> cases stepped
    exact ⟨_, snapshot, h.append phase (.save id state)⟩
  | delete id =>
    cases phase : s.phase <;> simp only [step, phase] at stepped <;> try cases stepped
    obtain ⟨records, -, rfl⟩ := Option.map_eq_some_iff.mp stepped
    by_cases absent : (records.lookup id).isNone = true
    · rw [if_pos absent]
      exact ⟨es, snapshot, h.memoized phase (some records)⟩
    · rw [if_neg absent]
      exact ⟨_, snapshot, (h.memoized phase (some records)).append rfl (.delete id)⟩
  | stage =>
    cases phase : s.phase <;> simp only [step, phase] at stepped <;> try cases stepped
    rename_i todo pending
    cases todo with
    | nil => cases stepped
    | cons e todo =>
      obtain ⟨current, read, rfl⟩ := Option.map_eq_some_iff.mp stepped
      exact ⟨es, snapshot, h.stage phase read⟩
  | publish =>
    cases phase : s.phase <;> simp only [step, phase] at stepped <;> cases stepped
    exact ⟨es, _, h.publish phase⟩
  | settle =>
    cases phase : s.phase <;> simp only [step, phase] at stepped <;> try cases stepped
    rename_i todo pending
    cases todo with
    | nil =>
      cases stepped
      exact ⟨es, snapshot, h.settle phase⟩
    | cons e todo => cases stepped
  | compact =>
    cases phase : s.phase <;> simp only [step, phase] at stepped <;> try cases stepped
    obtain ⟨current, read, rfl⟩ := Option.map_eq_some_iff.mp stepped
    exact ⟨es, snapshot, h.compact phase read⟩
  | replace =>
    cases phase : s.phase <;> simp only [step, phase] at stepped <;> cases stepped
    exact ⟨es, _, h.replace phase⟩
  | empty =>
    cases phase : s.phase <;> simp only [step, phase] at stepped <;> cases stepped
    exact ⟨[], snapshot, h.empty phase⟩
  | cut e bytes =>
    cases phase : s.phase <;> simp only [step, phase] at stepped <;> try cases stepped
    split at stepped
    · cases stepped
      obtain ⟨es', sound⟩ := h.cut phase whole
      exact ⟨es', snapshot, sound⟩
    · cases stepped

theorem run_sound {actions : List (Action σ)} {t : Store σ} (whole : ∀ a ∈ actions, a.Whole c)
    (ran : run c actions s = some t) (h : Sound c s es snapshot) :
    ∃ es' snapshot', Sound c t es' snapshot' := by
  induction actions generalizing s es snapshot with
  | nil =>
    cases ran
    exact ⟨es, snapshot, h⟩
  | cons a actions ih =>
    obtain ⟨u, stepped, rest⟩ := Option.bind_eq_some_iff.mp ran
    obtain ⟨es', snapshot', sound⟩ := step_sound (whole a List.mem_cons_self) stepped h
    exact ih (fun b mem => whole b (List.mem_cons_of_mem a mem)) rest sound

/-- Replaying the whole journal over a snapshot that holds a prefix of it gives the records that
replaying it once gives. -/
theorem replay_over_prefix (es : List (Entry σ)) (n : Nat) (records : Records σ) :
    ∃ once twice, c.replayJournal records (some (c.written es)) = some once ∧
      c.replayJournal ((es.take n).foldl replayLine records) (some (c.written es)) = some twice ∧
      twice.table = once.table := by
  refine ⟨_, _, Codec.replayJournal_written rfl records, Codec.replayJournal_written rfl _, ?_⟩
  rw [table_foldl, table_foldl, table_foldl]
  exact fold_over_part (fun e mem => List.mem_of_mem_take mem) _

end

/-- In every run, from an empty directory, whose crashes cut no append inside its line, the store
reopens with every acknowledged entry; and a replay over a prefix of the journal is harmless. -/
theorem reopening_recovers {σ : Type} (c : Codec σ) :
    (∀ (actions : List (Action σ)) (s : Store σ), run c actions fresh = some s →
      (∀ a ∈ actions, a.Whole c) → Durable c s) ∧
    ∀ (es : List (Entry σ)) (n : Nat) (records : Records σ),
      ∃ once twice, c.replayJournal records (some (c.written es)) = some once ∧
        c.replayJournal ((es.take n).foldl replayLine records) (some (c.written es)) =
          some twice ∧
        Records.table twice = Records.table once := by
  constructor
  · intro actions s ran whole
    obtain ⟨es, snapshot, sound⟩ := run_sound whole ran sound_fresh
    exact sound.durable
  · intro es n records
    exact replay_over_prefix es n records

/-- A save is killed once its line has landed. -/
def killedSave : List (Action String) := [.boot, .settle, .save "ACC-1" "Ada", .crash none]

theorem killed_save_recovers : ∃ s, run nameCodec killedSave fresh = some s ∧
    s.known = [.save "ACC-1" "Ada"] ∧ Durable nameCodec s := by
  refine ⟨_, rfl, rfl, ?_⟩
  apply (reopening_recovers nameCodec).1 killedSave _ rfl
  intro a mem
  simp only [killedSave, List.mem_cons, List.not_mem_nil, or_false] at mem
  rcases mem with rfl | rfl | rfl | rfl <;> trivial

/-- The first byte of a save's line lands, and nothing more. -/
def tornSave : List (Action String) := [.boot, .settle, .cut (.save "ACC-1" "Ada") 1]

theorem torn_line_unreadable : ∃ s, run nameCodec tornSave fresh = some s ∧
    nameCodec.read s.disk = none ∧ ¬Durable nameCodec s := by
  have first : (nameCodec.line (.save "ACC-1" "Ada")).take 1 = [123] := by decide
  have cut : 1 ≤ (nameCodec.line (.save "ACC-1" "Ada")).length := by simp [Codec.line]
  have ran : run nameCodec tornSave fresh = some ⟨⟨none, some [123], none⟩, none, .down,
      if 1 = (nameCodec.line (.save "ACC-1" "Ada")).length then [.save "ACC-1" "Ada"] else []⟩ := by
    show step nameCodec ⟨⟨none, none, none⟩, none, .idle, []⟩
      (.cut (.save "ACC-1" "Ada") 1) = _
    rw [step, if_pos cut, first]
    rfl
  have torn : nameCodec.read ⟨none, some [123], none⟩ = none := by
    have unread : nameCodec.parse [123] = none := by
      apply reader_none
      intro e same
      have one : (Slices.bytes (lineText e)).length = 1 := congrArg List.length same
      have long : (lineText e).length ≤ 1 := one ▸ Slices.length_le_size (lineText e)
      have key : operationKey.length = 14 := by decide
      rw [lineText, List.length_append] at long
      omega
    simp [Codec.read, Codec.readSnapshot, Codec.replayJournal, lines, unread]
  refine ⟨_, ran, torn, ?_⟩
  rintro ⟨-, records, read, -⟩
  cases torn.symm.trans read

/-! ### What is read between two commands -/

section

variable {σ : Type} (c : Codec σ)

/-- The records are exactly what is known, with what is pending. -/
def Store.Current (s : Store σ) (records : Records σ) : Prop :=
  records.table = fold (s.known ++ s.phase.pending.toList) fun _ => none

/-- The memoized records are current wherever they are read, and what is left to project ends the
journal. -/
def Store.Fresh (s : Store σ) : Phase σ → Prop
  | .down => s.memo = none
  | .idle => ∀ records ∈ s.memo, s.Current records
  | .projecting todo _ => (∃ done, c.entries s.disk = some (done ++ todo)) ∧
      (todo = [] → ∀ records ∈ s.memo, s.Current records)
  | .staged todo records _ => (∃ done, c.entries s.disk = some (done ++ todo)) ∧
      (todo = [] → s.Current records)
  | .compacting current => s.Current current ∧ ∀ records ∈ s.memo, s.Current records
  | .emptying current => s.Current current

end

section

variable {σ : Type} {c : Codec σ} {s t : Store σ} {es : List (Entry σ)} {snapshot : Records σ}

end

end Hecks.Heki
