import Mathlib
import Hecks.Lib.Chain
import Hecks.Lib.Utf8

/-! Seals over a domain's lineage journal, and the walk that shows the journal was not rewritten.
The database is what its statements make of it: a table of journal rows and a table of seals. -/

namespace Hecks.Host.Ledger

open Slices (bytes)

/-- A text column's value: a Rust string holds fewer than 2^63 bytes. -/
abbrev Text := { cs : List Char // (bytes cs).length < 2 ^ 63 }

/-- The digest the chain starts from: sixty-four zeros. -/
def genesis : List Char := List.replicate 64 '0'

/-- How many journal rows one read pulls. -/
def pageSize : Nat := 5000

/-- One seal: the head of the chain through an ordinal, and the head it followed. -/
structure Anchor where
  through : Int
  head : List Char
  previous : List Char
  deriving DecidableEq

/-- What a walk found when every seal held. -/
structure Report where
  seals : Nat
  entries : Nat
  unsealed : Int
  deriving DecidableEq

/-- The result of walking the chain. -/
inductive Finding where
  | verified (report : Report)
  | unproven (reason : String)
  deriving DecidableEq

/-- The columns of a row that the chain takes in. -/
structure Content where
  operation : Text
  aggregate : Text
  aggregateId : Text
  state : Option Text
  mirrors : Option Text
  deriving DecidableEq

/-- One journal row. -/
structure Row where
  ordinal : Int
  era : Int
  content : Content
  deriving DecidableEq

/-- A number in eight bytes, the greatest first. -/
def bigEndian (n : Nat) : List UInt8 :=
  [UInt8.ofNat (n / 2 ^ 56), UInt8.ofNat (n / 2 ^ 48), UInt8.ofNat (n / 2 ^ 40),
    UInt8.ofNat (n / 2 ^ 32), UInt8.ofNat (n / 2 ^ 24), UInt8.ofNat (n / 2 ^ 16),
    UInt8.ofNat (n / 2 ^ 8), UInt8.ofNat n]

def pack : Option Text → List UInt8
  | none => [0]
  | some text => 1 :: bigEndian (bytes text.1).length ++ bytes text.1

/-- What the hasher is fed for one row. -/
def packed (previous : List Char) (row : Content) : List UInt8 :=
  bytes previous ++ (pack (some row.operation) ++ (pack (some row.aggregate) ++
    (pack (some row.aggregateId) ++ (pack row.state ++ pack row.mirrors))))

def hexDigit (n : Nat) : Char :=
  if n < 10 then Char.ofNat (n + 0x30) else Char.ofNat (n - 10 + 0x61)

/-- The `{:x}` form of a digest. -/
def hex (digest : Vector UInt8 32) : List Char :=
  digest.toList.flatMap fun b => [hexDigit (b.toNat / 16), hexDigit (b.toNat % 16)]

section

-- The hash function.
variable (sha256 : List UInt8 → Vector UInt8 32)

/-- The digest after one row. -/
def step (previous : List Char) (row : Content) : List Char := hex (sha256 (packed previous row))

/-- `SELECT … WHERE ordinal > after AND ordinal <= through ORDER BY ordinal`. -/
def between (journal : List Row) (after through : Int) : List Row :=
  (journal.filter fun row => after < row.ordinal && row.ordinal ≤ through).mergeSort
    fun a b => a.ordinal ≤ b.ordinal

/-- One page of it. -/
def page (journal : List Row) (after through : Int) : List Row :=
  (between journal after through).take pageSize

theorem mem_between {journal : List Row} {after through : Int} {row : Row} :
    row ∈ between journal after through ↔
      row ∈ journal ∧ after < row.ordinal ∧ row.ordinal ≤ through := by
  simp [between]

theorem page_last {journal : List Row} {after through : Int} {last : Row}
    (h : (page journal after through).getLast? = some last) :
    last ∈ journal ∧ after < last.ordinal ∧ last.ordinal ≤ through :=
  mem_between.mp (List.mem_of_mem_take (List.mem_of_getLast? h))

theorem unread_lt {journal : List Row} {after through : Int} {last : Row}
    (h : (page journal after through).getLast? = some last) :
    (journal.filter fun row => last.ordinal < row.ordinal && row.ordinal ≤ through).length <
      (journal.filter fun row => after < row.ordinal && row.ordinal ≤ through).length := by
  obtain ⟨mem, above, within⟩ := page_last h
  have narrower : (journal.filter fun row => last.ordinal < row.ordinal && row.ordinal ≤ through) =
      (journal.filter fun row => after < row.ordinal && row.ordinal ≤ through).filter
        fun row => last.ordinal < row.ordinal := by
    rw [List.filter_filter]
    apply List.filter_congr
    intro row _
    rw [Bool.eq_iff_iff]
    simp only [Bool.and_eq_true, decide_eq_true_eq]
    omega
  rw [narrower]
  apply List.length_filter_lt_length_iff_exists.mpr
  exact ⟨last, by simp [mem, above, within], by simp⟩

/-- The digest after every journal row in `(after, through]`, seeded by `seed`, and how many rows
that was. -/
def fold (journal : List Row) (seed : List Char) (after through : Int) (counted : Nat) :
    List Char × Nat :=
  match h : (page journal after through).getLast? with
  | none => (seed, counted)
  | some last =>
      fold journal
        ((page journal after through).foldl (fun previous row => step sha256 previous row.content)
          seed)
        last.ordinal through (counted + (page journal after through).length)
termination_by (journal.filter fun row => after < row.ordinal && row.ordinal ≤ through).length
decreasing_by exact unread_lt h

/-- The highest ordinal in the journal, `0` when it is empty. -/
def lastOrdinal (journal : List Row) : Int :=
  ((journal.map (·.ordinal)).max?).getD 0

/-- The seals a journal carries, oldest first. -/
def anchors (seals : List Anchor) : List Anchor :=
  seals.mergeSort fun a b => a.through ≤ b.through

/-- The state of the database: the last value the ordinal sequence gave out, and the tables. -/
structure Tables where
  sequence : Int
  journal : List Row
  seals : List Anchor

/-- Folds the rows in `(after, end]` onto `seed` and records the result as the next seal. -/
def extend (tables : Tables) (after : Int) (seed : List Char) (last : Int) : Tables :=
  { tables with
    seals := tables.seals ++ [⟨last, (fold sha256 tables.journal seed after last 0).1, seed⟩] }

/-- Where the next seal starts: behind the last one, or at the start of the chain. -/
def sealedTo (tables : Tables) : Int × List Char :=
  match (anchors tables.seals).getLast? with
  | none => (0, genesis)
  | some last => (last.through, last.head)

/-- Seals the domain's journal at its present end, unless nothing was appended since the last
seal. The answer is the tables after it. (`seal` in the source, a word of Lean's own.) -/
def sealJournal (tables : Tables) : Tables :=
  let after := sealedTo tables
  if lastOrdinal tables.journal ≤ after.1 then tables
  else extend sha256 tables after.1 after.2 (lastOrdinal tables.journal)

/-- Seals the journal from inside a commit, once `every` or more rows lie past the last seal. -/
def sealDue (every : Int) (tables : Tables) : Tables :=
  let after := sealedTo tables
  if lastOrdinal tables.journal - after.1 < max every 1 then tables
  else extend sha256 tables after.1 after.2 (lastOrdinal tables.journal)

/-- The walk over the seals after `before`. -/
def walk (name : String) (journal : List Row) (before : Anchor) (entries : Nat) :
    List Anchor → Except String (Anchor × Nat)
  | [] => .ok (before, entries)
  | anchor :: rest =>
      if anchor.previous ≠ before.head then
        .error (name ++ ": the seal through " ++ toString anchor.through ++
          " does not follow the seal before it")
      else
        let recomputed := fold sha256 journal anchor.previous before.through anchor.through 0
        if recomputed.1 ≠ anchor.head then
          .error (name ++ ": the seal through " ++ toString anchor.through ++
            " does not match the journal")
        else walk name journal anchor (entries + recomputed.2) rest

/-- Walks the chain from the first seal, comparing each with the journal and with the one
before. -/
def verify (name : String) (journal : List Row) (seals : List Anchor) : Finding :=
  if anchors seals = [] then
    .unproven "nothing is sealed yet: the chain cannot be shown intact"
  else
    match walk sha256 name journal ⟨0, genesis, genesis⟩ 0 (anchors seals) with
    | .error reason => .unproven reason
    | .ok (before, entries) =>
        .verified ⟨(anchors seals).length, entries,
          max (lastOrdinal journal - before.through) 0⟩

/-- What happens to the tables. -/
inductive Op where
  /-- A row is appended under the sequence's next value. -/
  | append (era : Int) (content : Content)
  /-- A transaction that took an ordinal is rolled back. -/
  | rollback
  | sealJournal
  | sealDue (every : Int)

def Op.apply (tables : Tables) : Op → Tables
  | .append era content =>
      { tables with
        sequence := tables.sequence + 1
        journal := tables.journal ++ [⟨tables.sequence + 1, era, content⟩] }
  | .rollback => { tables with sequence := tables.sequence + 1 }
  | .sealJournal => Ledger.sealJournal sha256 tables
  | .sealDue every => Ledger.sealDue sha256 every tables

/-- The tables after these operations, from empty ones. -/
def run (ops : List Op) : Tables := ops.foldl (Op.apply sha256) ⟨0, [], []⟩

end

end Hecks.Host.Ledger
