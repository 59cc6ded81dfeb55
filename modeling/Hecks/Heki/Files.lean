import Mathlib
import Hecks.Lib.Replay

/-! The file-backed store: a compressed snapshot and an append-only journal beside it, and what
they read as. -/
namespace Hecks.Heki

/-- A save or a delete, as a journal line holds it. `σ` is a state in its JSON form. -/
inductive Entry (σ : Type) where
  | save (id : String) (state : σ)
  | delete (id : String)

/-- The current projected states by their ids. -/
abbrev Records (σ : Type) := AList fun _ : String => σ

/-- The JSON and zlib text of entries and records, and their readers. A line is written without
its newline; what is written reads back. -/
structure Codec (σ : Type) where
  generate : Entry σ → List UInt8
  parse : List UInt8 → Option (Entry σ)
  deflate : Records σ → List UInt8
  inflate : List UInt8 → Option (Records σ)
  noNewline : ∀ e, 10 ∉ generate e
  filled : ∀ e, generate e ≠ []
  parse_generate : ∀ e, parse (generate e) = some e
  parse_line : ∀ e, parse (generate e ++ [10]) = some e
  inflate_deflate : ∀ records, inflate (deflate records) = some records

/-- The files of a store. -/
structure Disk where
  snapshot : Option (List UInt8)
  journal : Option (List UInt8)
  temp : Option (List UInt8)

def headerBytes : Nat := 8

/-- `HEKI`. -/
def magic : List UInt8 := [72, 69, 75, 73]

/-- `pack("N")`: 32 bits, the highest byte first. -/
def packN (n : Nat) : List UInt8 :=
  [UInt8.ofNat (n / 2 ^ 24), UInt8.ofNat (n / 2 ^ 16), UInt8.ofNat (n / 2 ^ 8), UInt8.ofNat n]

/-- The lines of a file, each with its newline; the last may be without one. -/
def lines : List UInt8 → List (List UInt8)
  | [] => []
  | b :: bs =>
      if b = 10 then [b] :: lines bs
      else
        match lines bs with
        | [] => [[b]]
        | l :: ls => (b :: l) :: ls

section

variable {σ : Type}

def replayLine (records : Records σ) : Entry σ → Records σ
  | .save id state => records.insert id state
  | .delete id => records.erase id

def Records.sorted (records : Records σ) : Records σ where
  entries := records.entries.mergeSort fun a b => !decide (b.1 < a.1)
  nodupKeys := ((List.mergeSort_perm _ _).map Sigma.fst).nodup_iff.mpr records.nodupKeys

namespace Codec

variable (c : Codec σ)

def line (e : Entry σ) : List UInt8 := c.generate e ++ [10]

/-- The body `write` puts into the temp file. -/
def body (records : Records σ) : List UInt8 :=
  magic ++ packN records.entries.length ++ c.deflate records.sorted

/-- A file that is not there holds no records; one too short, of another magic or with a body
that does not read is malformed. -/
def readSnapshot : Option (List UInt8) → Option (Records σ)
  | none => some ∅
  | some data =>
      if data.length < headerBytes then none
      else if data.take 4 ≠ magic then none
      else c.inflate (data.drop headerBytes)

def replayJournal (records : Records σ) : Option (List UInt8) → Option (Records σ)
  | none => some records
  | some data =>
      (lines data).foldlM (fun records line => (c.parse line).map (replayLine records)) records

def read (disk : Disk) : Option (Records σ) := do
  let snapshot ← c.readSnapshot disk.snapshot
  c.replayJournal snapshot disk.journal

/-- Every journalled entry; a blank line is none. -/
def entries (disk : Disk) : Option (List (Entry σ)) :=
  match disk.journal with
  | none => some []
  | some data =>
      let chomped := (lines data).map fun l => if l.getLast? = some 10 then l.dropLast else l
      (chomped.filter fun l => !l.isEmpty).mapM c.parse

end Codec

end

def Disk.append (disk : Disk) (bytes : List UInt8) : Disk :=
  { disk with journal := some (disk.journal.getD [] ++ bytes) }

/-! ### What is read of what is written -/

theorem lines_line {text rest : List UInt8} (h : 10 ∉ text) :
    lines (text ++ 10 :: rest) = (text ++ [10]) :: lines rest := by
  induction text with
  | nil => rfl
  | cons b text ih =>
    have other : b ≠ 10 := fun same => h (same ▸ List.mem_cons_self)
    rw [List.cons_append, lines, if_neg other, ih fun mem => h (List.mem_cons_of_mem b mem)]
    rfl

section

variable {σ : Type} (c : Codec σ)

/-- The bytes of a journal of these entries. -/
def Codec.written (es : List (Entry σ)) : List UInt8 := es.flatMap c.line

theorem Codec.lines_written (es : List (Entry σ)) : lines (c.written es) = es.map c.line := by
  induction es with
  | nil => rfl
  | cons e es ih =>
    have text : c.written (e :: es) = c.generate e ++ 10 :: c.written es := by
      simp [Codec.written, Codec.line]
    rw [text, lines_line (c.noNewline e), ih]
    rfl

/-- What an entry does to the records, seen by their ids. -/
def Entry.edit : Entry σ → Replay.Edit String σ
  | .save id state => ⟨id, some state⟩
  | .delete id => ⟨id, none⟩

/-- The fold of these entries over a table of states. -/
def fold (es : List (Entry σ)) (table : String → Option σ) : String → Option σ :=
  Replay.replay (es.map Entry.edit) table

/-- The records as a table. -/
def Records.table (records : Records σ) : String → Option σ := fun id => records.lookup id

theorem table_replayLine (records : Records σ) (e : Entry σ) :
    Records.table (replayLine records e) = Replay.apply records.table e.edit := by
  funext id
  cases e with
  | save key state =>
    show (records.insert key state).lookup id = Function.update records.table key (some state) id
    by_cases same : id = key
    · subst same
      rw [AList.lookup_insert, Function.update_self]
    · rw [AList.lookup_insert_ne same, Function.update_of_ne same]
      rfl
  | delete key =>
    show (records.erase key).lookup id = Function.update records.table key none id
    by_cases same : id = key
    · subst same
      rw [AList.lookup_erase, Function.update_self]
    · rw [AList.lookup_erase_ne same, Function.update_of_ne same]
      rfl

theorem table_sorted (records : Records σ) : Records.table records.sorted = records.table := by
  funext id
  exact AList.perm_lookup (List.mergeSort_perm _ _)

theorem Codec.readSnapshot_body (records : Records σ) :
    c.readSnapshot (some (c.body records)) = some records.sorted := by
  have long : ¬(c.body records).length < headerBytes := by
    simp only [Codec.body, magic, packN, headerBytes, List.length_append, List.length_cons,
      List.length_nil]
    omega
  rw [Codec.readSnapshot, if_neg long, if_neg (by simp [Codec.body, magic])]
  exact c.inflate_deflate records.sorted

theorem Codec.replay_lines (es : List (Entry σ)) (records : Records σ) :
    (es.map c.line).foldlM (fun records line => (c.parse line).map (replayLine records)) records =
      some (es.foldl replayLine records) := by
  induction es generalizing records with
  | nil => rfl
  | cons e es ih =>
    rw [List.map_cons, List.foldlM_cons, Codec.line, c.parse_line e]
    exact ih (replayLine records e)

theorem table_foldl (es : List (Entry σ)) (records : Records σ) :
    Records.table (es.foldl replayLine records) = fold es records.table := by
  induction es generalizing records with
  | nil => rfl
  | cons e es ih =>
    rw [List.foldl_cons, ih, table_replayLine]
    rfl

theorem Codec.entries_written (disk : Disk) (es : List (Entry σ))
    (journal : disk.journal = some (c.written es)) : c.entries disk = some es := by
  have chomp : ∀ e : Entry σ, (if (c.line e).getLast? = some 10 then (c.line e).dropLast
      else c.line e) = c.generate e := by
    intro e
    rw [Codec.line, if_pos List.getLast?_concat, List.dropLast_concat]
  have texts : (es.map c.line).map (fun l => if l.getLast? = some 10 then l.dropLast else l) =
      es.map c.generate := by
    rw [List.map_map]
    exact List.map_congr_left fun e _ => chomp e
  have filled : (es.map c.generate).filter (fun l => !l.isEmpty) = es.map c.generate := by
    apply List.filter_eq_self.mpr
    intro l mem
    obtain ⟨e, -, rfl⟩ := List.mem_map.mp mem
    simpa using c.filled e
  have parsed : (es.map c.generate).mapM c.parse = some es := by
    clear journal chomp texts filled
    induction es with
    | nil => rfl
    | cons e es ih =>
      rw [List.map_cons, List.mapM_cons, c.parse_generate e, ih]
      rfl
  rw [Codec.entries, journal]
  dsimp only
  rw [c.lines_written, texts, filled, parsed]

end

end Hecks.Heki
