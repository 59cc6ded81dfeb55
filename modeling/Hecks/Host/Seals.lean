import Mathlib
import Hecks.Host.Ledger

/-! What the chain of seals shows: a walk that holds has read the rows that were sealed. -/

namespace Hecks.Host.Ledger

open Slices

/-! ### Packing -/

theorem bigEndian_injective {n m : Nat} (hn : n < 2 ^ 64) (hm : m < 2 ^ 64)
    (h : bigEndian n = bigEndian m) : n = m := by
  simp only [bigEndian, List.cons.injEq, and_true, ← UInt8.toNat_inj, UInt8.toNat_ofNat'] at h
  omega

/-- A packed column ends where its length says, so what follows it cannot be taken for it. -/
theorem pack_append {a b : Option Text} {rest rest' : List UInt8}
    (h : pack a ++ rest = pack b ++ rest') : a = b ∧ rest = rest' := by
  cases a with
  | none =>
    cases b with
    | none => exact ⟨rfl, List.append_cancel_left h⟩
    | some t => simp [pack] at h
  | some s =>
    cases b with
    | none => simp [pack] at h
    | some t =>
      have head := congrArg List.tail h
      simp only [pack, List.cons_append, List.tail_cons, List.append_assoc] at head
      obtain ⟨lengths, texts⟩ := List.append_inj head rfl
      have fitS := s.2
      have fitT := t.2
      have same := bigEndian_injective (by omega) (by omega) lengths
      obtain ⟨content, left⟩ := List.append_inj texts same
      exact ⟨congrArg some (Subtype.ext (bytes_injective content)), left⟩

/-- The text of a digest. -/
def IsDigest (d : List Char) : Prop := (bytes d).length = 64

/-- A row's bytes give back the digest before it and the row. -/
theorem packed_readable (d : List Char) (r : Content) (e : List Char) (s : Content)
    (kindD : IsDigest d) (kindE : IsDigest e) (h : packed d r = packed e s) : d = e ∧ r = s := by
  obtain ⟨digests, rows⟩ := List.append_inj h (kindD.trans kindE.symm)
  obtain ⟨operation, rows⟩ := pack_append rows
  obtain ⟨aggregate, rows⟩ := pack_append rows
  obtain ⟨aggregateId, rows⟩ := pack_append rows
  obtain ⟨state, rows⟩ := pack_append rows
  have last : pack r.mirrors ++ [] = pack s.mirrors ++ [] := by simpa using rows
  have mirrors := (pack_append last).1
  refine ⟨bytes_injective digests, ?_⟩
  cases r
  cases s
  simp only [Option.some.injEq] at operation aggregate aggregateId state mirrors
  rw [operation, aggregate, aggregateId, state, mirrors]

theorem hexDigit_small {n : Nat} (h : n < 16) : (hexDigit n).toNat < 128 := by
  have all : ∀ n : Fin 16, (hexDigit n).toNat < 128 := by decide
  exact all ⟨n, h⟩

theorem hexDigit_injective {n m : Nat} (hn : n < 16) (hm : m < 16)
    (h : hexDigit n = hexDigit m) : n = m := by
  have all : ∀ n m : Fin 16, hexDigit n = hexDigit m → n = m := by decide
  exact congrArg Fin.val (all ⟨n, hn⟩ ⟨m, hm⟩ h)

theorem bytes_hex_length (bs : List UInt8) : (bytes (bs.flatMap fun b =>
    [hexDigit (b.toNat / 16), hexDigit (b.toNat % 16)])).length = 2 * bs.length := by
  induction bs with
  | nil => rfl
  | cons b bs ih =>
    have := b.toNat_lt
    rw [List.flatMap_cons, bytes_append, List.length_append, ih, bytes_cons, bytes_cons,
      encode_ascii (hexDigit_small (by omega)), encode_ascii (hexDigit_small (by omega))]
    simp only [bytes_nil, List.append_nil, List.length_append, List.length_cons, List.length_nil]
    omega

theorem hex_isDigest (v : Vector UInt8 32) : IsDigest (hex v) := by
  unfold IsDigest hex
  rw [bytes_hex_length, Vector.length_toList]

theorem genesis_isDigest : IsDigest genesis := by
  unfold IsDigest
  decide

theorem hex_injective : Function.Injective hex := by
  intro v w h
  have lists : ∀ bs cs : List UInt8, (bs.flatMap fun b =>
      [hexDigit (b.toNat / 16), hexDigit (b.toNat % 16)]) = (cs.flatMap fun b =>
        [hexDigit (b.toNat / 16), hexDigit (b.toNat % 16)]) → bs = cs := by
    intro bs
    induction bs with
    | nil =>
      intro cs same
      cases cs with
      | nil => rfl
      | cons c cs => simp at same
    | cons b bs ih =>
      intro cs same
      cases cs with
      | nil => simp at same
      | cons c cs =>
        simp only [List.flatMap_cons, List.cons_append, List.nil_append, List.cons.injEq] at same
        obtain ⟨high, low, rest⟩ := same
        have := b.toNat_lt
        have := c.toNat_lt
        have quotient := hexDigit_injective (by omega) (by omega) high
        have remainder := hexDigit_injective (by omega) (by omega) low
        have byte : b = c := UInt8.toNat_inj.mp (by omega)
        rw [byte, ih cs rest]
  exact Vector.toList_inj.mp (lists _ _ h)


/-! ### Folding page by page -/

section

variable {journal : List Row} {after mid through : Int}

/-- The rows of a journal have ordinals of their own. -/
def Distinct (journal : List Row) : Prop := (journal.map (·.ordinal)).Nodup

/-- Rows in the order of their ordinals. -/
def Ordered (rows : List Row) : Prop := rows.Pairwise fun a b => a.ordinal < b.ordinal

/-- Rows in order are known by which they are. -/
theorem Ordered.eq_of_mem {rows others : List Row} (ordered : Ordered rows)
    (ordered' : Ordered others) (same : ∀ row, row ∈ rows ↔ row ∈ others) : rows = others := by
  have nodup : ∀ {rows : List Row}, Ordered rows → rows.Nodup := fun ordered =>
    ordered.imp fun less same => absurd (congrArg Row.ordinal same) (Int.ne_of_lt less)
  have perm := (List.perm_ext_iff_of_nodup (nodup ordered) (nodup ordered')).mpr same
  unfold Ordered at ordered ordered'
  refine List.Perm.eq_of_pairwise ?_ ordered ordered' perm
  intro a b _ _ less more
  omega

theorem ordered_between (distinct : Distinct journal) : Ordered (between journal after through) := by
  have sorted : (between journal after through).Pairwise fun a b => a.ordinal ≤ b.ordinal := by
    apply (List.pairwise_mergeSort _ _ _).imp
    · intro a b le
      simpa using le
    · intro a b c ab bc
      simp only [decide_eq_true_eq] at ab bc ⊢
      omega
    · intro a b
      simp only [Bool.or_eq_true, decide_eq_true_eq]
      omega
  have fresh : (between journal after through).Pairwise fun a b => a.ordinal ≠ b.ordinal := by
    apply List.pairwise_map.mp
    apply (List.Perm.nodup_iff ((List.mergeSort_perm _ _).map _)).mpr
    exact distinct.sublist (List.filter_sublist.map _)
  exact (sorted.and fresh).imp fun h => lt_of_le_of_ne h.1 h.2

/-- What lies up to one ordinal, and then up to another. -/
theorem between_append (distinct : Distinct journal) (first : after ≤ mid) (second : mid ≤ through) :
    between journal after through = between journal after mid ++ between journal mid through := by
  apply (ordered_between distinct).eq_of_mem
  · apply List.pairwise_append.mpr
    refine ⟨ordered_between distinct, ordered_between distinct, ?_⟩
    intro a memA b memB
    have := (mem_between.mp memA).2
    have := (mem_between.mp memB).2
    omega
  · intro row
    simp only [List.mem_append, mem_between]
    constructor
    · rintro ⟨mem, above, within⟩
      by_cases low : row.ordinal ≤ mid
      · exact .inl ⟨mem, above, low⟩
      · exact .inr ⟨mem, by omega, within⟩
    · rintro (⟨mem, above, within⟩ | ⟨mem, above, within⟩)
      · exact ⟨mem, above, by omega⟩
      · exact ⟨mem, by omega, within⟩

/-- A page, and what lies behind its last row. -/
theorem page_append (distinct : Distinct journal) {last : Row}
    (h : (page journal after through).getLast? = some last) :
    between journal after through =
      page journal after through ++ between journal last.ordinal through := by
  have ordered : Ordered (between journal after through) := ordered_between distinct
  have split : between journal after through = page journal after through ++
      (between journal after through).drop pageSize := (List.take_append_drop _ _).symm
  have behind : (between journal after through).drop pageSize =
      between journal last.ordinal through := by
    rw [split] at ordered
    obtain ⟨front, back, across⟩ := List.pairwise_append.mp ordered
    have lastMem := List.mem_of_getLast? h
    have above := (page_last h).2.1
    apply Ordered.eq_of_mem back (ordered_between distinct)
    intro row
    constructor
    · intro mem
      have inside := mem_between.mp (List.mem_of_mem_drop mem)
      exact mem_between.mpr ⟨inside.1, across last lastMem row mem, inside.2.2⟩
    · intro mem
      obtain ⟨inside, later, within⟩ := mem_between.mp mem
      have all : row ∈ between journal after through := mem_between.mpr ⟨inside, by omega, within⟩
      rw [split] at all
      rcases List.mem_append.mp all with early | late
      · exfalso
        obtain ⟨before, same⟩ := List.getLast?_eq_some_iff.mp h
        rw [same] at early front
        rcases List.mem_append.mp early with earlier | equal
        · have less := (List.pairwise_append.mp front).2.2 row earlier last (by simp)
          omega
        · rw [List.mem_singleton] at equal
          rw [equal] at later
          omega
      · exact late
  rw [← behind]
  exact split

variable (sha256 : List UInt8 → Vector UInt8 32)

/-- The digest after these rows, from the start of the chain or from where another digest
stands. -/
def chain (seed : List Char) (rows : List Content) : List Char :=
  Chain.run packed (fun m => hex (sha256 m)) seed rows

/-- Page by page the fold takes in every row. -/
theorem fold_eq (distinct : Distinct journal) (seed : List Char) (counted : Nat) :
    fold sha256 journal seed after through counted =
      (chain sha256 seed ((between journal after through).map (·.content)),
        counted + (between journal after through).length) := by
  induction seed, after, counted using fold.induct sha256 journal through with
  | case1 seed after counted none =>
    have empty : between journal after through = [] := by
      rw [List.getLast?_eq_none_iff, page, List.take_eq_nil_iff] at none
      exact none.resolve_left (by decide)
    rw [fold]
    split
    next => rw [empty]; rfl
    next last some =>
      rw [none] at some
      cases some
  | case2 seed after counted last some ih =>
    rw [fold]
    split
    next none =>
      rw [some] at none
      cases none
    next last' some' =>
      rw [some] at some'
      cases some'
      rw [ih, page_append distinct some, List.map_append, chain, chain, Chain.run_append,
        List.length_append, Nat.add_assoc]
      congr 2
      unfold Chain.run
      rw [List.foldl_map]
      rfl

end

/-! ### Seals that follow one another -/

section

variable (sha256 : List UInt8 → Vector UInt8 32) {journal : List Row}

/-- The contents of the rows in `(after, through]`, in order. -/
def contents (journal : List Row) (after through : Int) : List Content :=
  (between journal after through).map (·.content)

theorem contents_append (distinct : Distinct journal) {after mid through : Int}
    (first : after ≤ mid) (second : mid ≤ through) :
    contents journal after through = contents journal after mid ++ contents journal mid through := by
  rw [contents, between_append distinct first second, List.map_append]
  rfl

/-- Each seal covers rows behind the one before it. -/
def Rising : Anchor → List Anchor → Prop
  | _, [] => True
  | before, anchor :: rest => before.through < anchor.through ∧ Rising anchor rest

/-- Each seal follows the one before it and holds the digest of the rows between them. -/
def Linked (journal : List Row) : Anchor → List Anchor → Prop
  | _, [] => True
  | before, anchor :: rest =>
      (anchor.previous = before.head ∧
        anchor.head = chain sha256 before.head (contents journal before.through anchor.through)) ∧
      Linked journal anchor rest

/-- The seal the walk stands at in the end. -/
def lastOf (before : Anchor) (seals : List Anchor) : Anchor := seals.getLast?.getD before

theorem lastOf_cons (before anchor : Anchor) (rest : List Anchor) :
    lastOf before (anchor :: rest) = lastOf anchor rest := by
  cases rest with
  | nil => rfl
  | cons next rest =>
    rw [lastOf, lastOf, List.getLast?_cons_cons,
      List.getLast?_eq_some_getLast (List.cons_ne_nil next rest)]
    rfl

theorem Rising.le_last {before : Anchor} {seals : List Anchor} (rising : Rising before seals) :
    before.through ≤ (lastOf before seals).through := by
  induction seals generalizing before with
  | nil => exact Int.le_refl _
  | cons anchor rest ih =>
    rw [lastOf_cons]
    have := ih rising.2
    have := rising.1
    omega

theorem Rising.above {before : Anchor} {seals : List Anchor} (rising : Rising before seals) :
    ∀ anchor ∈ seals, before.through < anchor.through := by
  induction seals generalizing before with
  | nil => simp
  | cons anchor rest ih =>
    intro a mem
    rcases List.mem_cons.mp mem with rfl | mem
    · exact rising.1
    · have := ih rising.2 a mem
      have := rising.1
      omega

theorem Rising.sorted {before : Anchor} {seals : List Anchor} (rising : Rising before seals) :
    anchors seals = seals := by
  apply List.mergeSort_of_pairwise
  induction seals generalizing before with
  | nil => exact .nil
  | cons anchor rest ih =>
    refine .cons ?_ (ih rising.2)
    intro a mem
    have := rising.2.above a mem
    simp only [decide_eq_true_eq]
    omega

theorem Rising.snoc {before anchor : Anchor} {seals : List Anchor} (rising : Rising before seals)
    (later : (lastOf before seals).through < anchor.through) : Rising before (seals ++ [anchor]) := by
  induction seals generalizing before with
  | nil => exact ⟨later, trivial⟩
  | cons a rest ih =>
    rw [lastOf_cons] at later
    exact ⟨rising.1, ih rising.2 later⟩

variable {sha256}

theorem Linked.snoc {before anchor : Anchor} {seals : List Anchor}
    (linked : Linked sha256 journal before seals)
    (follows : anchor.previous = (lastOf before seals).head)
    (holds : anchor.head = chain sha256 (lastOf before seals).head
      (contents journal (lastOf before seals).through anchor.through)) :
    Linked sha256 journal before (seals ++ [anchor]) := by
  induction seals generalizing before with
  | nil => exact ⟨⟨follows, holds⟩, trivial⟩
  | cons a rest ih =>
    rw [lastOf_cons] at follows holds
    exact ⟨linked.1, ih linked.2 follows holds⟩

/-- Rows beyond every seal change no seal. -/
theorem Linked.append {before : Anchor} {seals : List Anchor} {row : Row}
    (linked : Linked sha256 journal before seals)
    (beyond : ∀ anchor ∈ seals, anchor.through < row.ordinal) :
    Linked sha256 (journal ++ [row]) before seals := by
  induction seals generalizing before with
  | nil => trivial
  | cons a rest ih =>
    have same : contents (journal ++ [row]) before.through a.through =
        contents journal before.through a.through := by
      have out : ¬ row.ordinal ≤ a.through := Int.not_le.mpr (beyond a List.mem_cons_self)
      unfold contents between
      rw [List.filter_append, List.filter_singleton]
      simp [out]
    refine ⟨?_, ih linked.2 fun anchor mem => beyond anchor (List.mem_cons_of_mem a mem)⟩
    rw [same]
    exact linked.1

/-- The walk over seals that hold comes to the last of them, and counts the rows. -/
theorem walk_of_linked (distinct : Distinct journal) (name : String) {before : Anchor}
    {seals : List Anchor} (rising : Rising before seals)
    (linked : Linked sha256 journal before seals) (entries : Nat) :
    walk sha256 name journal before entries seals = .ok (lastOf before seals,
      entries + (between journal before.through (lastOf before seals).through).length) := by
  induction seals generalizing before entries with
  | nil =>
    have none : between journal before.through before.through = [] := by
      apply List.eq_nil_iff_forall_not_mem.mpr
      intro row mem
      have := (mem_between.mp mem).2
      omega
    rw [walk, lastOf, List.getLast?_nil, Option.getD_none, none]
    rfl
  | cons anchor rest ih =>
    obtain ⟨⟨follows, holds⟩, linked⟩ := linked
    rw [walk, if_neg (by rw [follows]; simp)]
    simp only [fold_eq sha256 distinct, follows]
    rw [if_neg (by rw [holds]; simp [contents]), ih rising.2 linked, lastOf_cons,
      between_append distinct (Int.le_of_lt rising.1) rising.2.le_last, List.length_append]
    simp only [Nat.zero_add, Nat.add_assoc]

/-- A walk that ends well has recomputed the head of the last seal from the rows it covers. -/
theorem head_of_walk (distinct : Distinct journal) (name : String) {before last : Anchor}
    {seals : List Anchor} (rising : Rising before seals) {entries counted : Nat}
    (h : walk sha256 name journal before entries seals = .ok (last, counted)) :
    last = lastOf before seals ∧
      last.head = chain sha256 before.head (contents journal before.through last.through) := by
  induction seals generalizing before entries with
  | nil =>
    cases h
    have none : contents journal last.through last.through = [] := by
      apply List.eq_nil_iff_forall_not_mem.mpr
      intro content mem
      obtain ⟨row, mem, -⟩ := List.mem_map.mp mem
      have := (mem_between.mp mem).2
      omega
    rw [none]
    exact ⟨rfl, rfl⟩
  | cons anchor rest ih =>
    rw [walk] at h
    split at h
    next => cases h
    next follows =>
      simp only [fold_eq sha256 distinct] at h
      split at h
      next => cases h
      next holds =>
        rw [ne_eq, not_not] at follows holds
        obtain ⟨same, head⟩ := ih rising.2 h
        rw [lastOf_cons]
        refine ⟨same, ?_⟩
        rw [head, ← holds, follows, contents_append distinct (Int.le_of_lt rising.1) (by
          rw [same]
          exact rising.2.le_last)]
        exact (Chain.run_append _ _ _ _ _).symm

end

/-! ### Runs -/

section

variable (sha256 : List UInt8 → Vector UInt8 32)

/-- Where the walk starts. -/
def start : Anchor := ⟨0, genesis, genesis⟩

/-- What holds of the tables after every run. -/
structure Sound (tables : Tables) : Prop where
  positive : ∀ row ∈ tables.journal, 0 < row.ordinal
  drawn : ∀ row ∈ tables.journal, row.ordinal ≤ tables.sequence
  counted : 0 ≤ tables.sequence
  ordered : Ordered tables.journal
  rising : Rising start tables.seals
  covered : ∀ anchor ∈ tables.seals, anchor.through ≤ tables.sequence
  linked : Linked sha256 tables.journal start tables.seals

variable {sha256} {tables : Tables}

theorem Ordered.distinct {journal : List Row} (ordered : Ordered journal) : Distinct journal :=
  List.pairwise_map.mpr (ordered.imp fun less => Int.ne_of_lt less)

theorem lastOrdinal_le (sound : Sound sha256 tables) :
    lastOrdinal tables.journal ≤ tables.sequence := by
  unfold lastOrdinal
  cases greatest : (tables.journal.map (·.ordinal)).max? with
  | none => exact sound.counted
  | some n =>
    obtain ⟨row, mem, rfl⟩ := List.mem_map.mp (List.max?_mem greatest)
    exact sound.drawn row mem

theorem sealedTo_eq (sound : Sound sha256 tables) :
    sealedTo tables = ((lastOf start tables.seals).through, (lastOf start tables.seals).head) := by
  unfold sealedTo lastOf
  rw [sound.rising.sorted]
  cases tables.seals.getLast? <;> rfl

/-- A seal taken behind the last one keeps the tables sound. -/
theorem Sound.extend (sound : Sound sha256 tables) {last : Int}
    (later : (sealedTo tables).1 < last) (drawn : last ≤ tables.sequence) :
    Sound sha256 (extend sha256 tables (sealedTo tables).1 (sealedTo tables).2 last) := by
  rw [sealedTo_eq sound] at later ⊢
  have folded : fold sha256 tables.journal (lastOf start tables.seals).head
      (lastOf start tables.seals).through last 0 = _ := fold_eq sha256 sound.ordered.distinct _ _
  refine ⟨sound.positive, sound.drawn, sound.counted, sound.ordered, sound.rising.snoc later, ?_,
    sound.linked.snoc rfl ?_⟩
  · intro anchor mem
    rcases List.mem_append.mp mem with mem | mem
    · exact sound.covered anchor mem
    · rw [List.mem_singleton] at mem
      rw [mem]
      exact drawn
  · exact congrArg Prod.fst folded

theorem Sound.append (sound : Sound sha256 tables) (era : Int) (content : Content) :
    Sound sha256 (Op.apply sha256 tables (.append era content)) := by
  have next : ∀ row ∈ tables.journal ++ [⟨tables.sequence + 1, era, content⟩],
      row ∈ tables.journal ∨ row.ordinal = tables.sequence + 1 := by
    intro row mem
    rcases List.mem_append.mp mem with mem | mem
    · exact .inl mem
    · rw [List.mem_singleton] at mem
      exact .inr (by rw [mem])
  have counted := sound.counted
  refine ⟨?_, ?_, ?_, ?_, sound.rising, ?_, ?_⟩
  · intro row mem
    rcases next row mem with mem | same
    · exact sound.positive row mem
    · omega
  · intro row mem
    show row.ordinal ≤ tables.sequence + 1
    rcases next row mem with mem | same
    · have := sound.drawn row mem
      omega
    · omega
  · show 0 ≤ tables.sequence + 1
    omega
  · apply List.pairwise_append.mpr
    refine ⟨sound.ordered, List.pairwise_singleton _ _, ?_⟩
    intro a mem b last
    rw [List.mem_singleton] at last
    have := sound.drawn a mem
    rw [last]
    show a.ordinal < tables.sequence + 1
    omega
  · intro anchor mem
    have := sound.covered anchor mem
    show anchor.through ≤ tables.sequence + 1
    omega
  · apply sound.linked.append
    intro anchor mem
    have := sound.covered anchor mem
    show anchor.through < tables.sequence + 1
    omega

theorem Sound.apply (sound : Sound sha256 tables) (op : Op) :
    Sound sha256 (Op.apply sha256 tables op) := by
  cases op with
  | append era content => exact sound.append era content
  | rollback =>
    have counted := sound.counted
    refine ⟨sound.positive, ?_, ?_, sound.ordered, sound.rising, ?_, sound.linked⟩
    · intro row mem
      have := sound.drawn row mem
      show row.ordinal ≤ tables.sequence + 1
      omega
    · show 0 ≤ tables.sequence + 1
      omega
    · intro anchor mem
      have := sound.covered anchor mem
      show anchor.through ≤ tables.sequence + 1
      omega
  | sealJournal =>
    unfold Op.apply sealJournal
    dsimp only
    split
    next => exact sound
    next later => exact sound.extend (by omega) (lastOrdinal_le sound)
  | sealDue every =>
    unfold Op.apply sealDue
    dsimp only
    split
    next => exact sound
    next due => exact sound.extend (by omega) (lastOrdinal_le sound)

theorem sound_run (sha256 : List UInt8 → Vector UInt8 32) (ops : List Op) : Sound sha256 (run sha256 ops) := by
  induction ops using List.reverseRecOn with
  | nil =>
    refine ⟨?_, ?_, Int.le_refl _, .nil, trivial, ?_, trivial⟩
    · intro row mem
      cases mem
    · intro row mem
      cases mem
    · intro anchor mem
      cases mem
  | append_singleton ops op ih =>
    rw [run, List.foldl_append]
    exact ih.apply op

end

/-! ### Tamper evidence -/

section

variable (sha256 : List UInt8 → Vector UInt8 32)

/-- What is hashed for the rows through an ordinal. -/
def hashed (journal : List Row) (through : Int) : List (List UInt8) :=
  Chain.messages packed (fun m => hex (sha256 m)) genesis (contents journal 0 through)

/-- No input of the one walk collides with one of the other, and none comes to sixty-four zeros. -/
structure NoCollision (xs ys : List (List UInt8)) : Prop where
  apart : ∀ x ∈ xs, ∀ y ∈ ys, sha256 x = sha256 y → x = y
  away : ∀ x ∈ xs ++ ys, hex (sha256 x) ≠ genesis

variable {sha256}

/-- Rows whose chains come to one head have the same contents. -/
theorem contents_eq {journal altered : List Row} {through : Int}
    (safe : NoCollision sha256 (hashed sha256 altered through) (hashed sha256 journal through))
    (same : chain sha256 genesis (contents altered 0 through) =
      chain sha256 genesis (contents journal 0 through)) :
    contents altered 0 through = contents journal 0 through := by
  apply Chain.entries_eq (fun m => hex_isDigest (sha256 m)) genesis_isDigest packed_readable _
    safe.away same
  intro x memX y memY digests
  exact safe.apart x memX y memY (hex_injective digests)

theorem walk_of_verified {name : String} {journal : List Row} {seals : List Anchor}
    (rising : Rising start seals) {report : Report}
    (h : verify sha256 name journal seals = .verified report) :
    ∃ last counted, walk sha256 name journal start 0 seals = .ok (last, counted) := by
  unfold verify at h
  rw [rising.sorted] at h
  split at h
  next => cases h
  next =>
    split at h
    next => cases h
    next last counted ended => exact ⟨last, counted, ended⟩

/-- The journal and the seals of every run: an altered journal that the walk finds intact has the
contents of the rows that were sealed, in order; the journal itself is found intact as soon as
something is sealed, with every sealed row counted. -/
theorem tamper_evidence (sha256 : List UInt8 → Vector UInt8 32) (name : String) (ops : List Op)
    (altered : List Row) (distinct : Distinct altered) :
    (∀ report, verify sha256 name altered (run sha256 ops).seals = .verified report →
      NoCollision sha256 (hashed sha256 altered (sealedTo (run sha256 ops)).1)
        (hashed sha256 (run sha256 ops).journal (sealedTo (run sha256 ops)).1) →
      contents altered 0 (sealedTo (run sha256 ops)).1 =
        contents (run sha256 ops).journal 0 (sealedTo (run sha256 ops)).1) ∧
    ((run sha256 ops).seals ≠ [] →
      verify sha256 name (run sha256 ops).journal (run sha256 ops).seals =
        .verified ⟨(run sha256 ops).seals.length,
          ((run sha256 ops).journal.filter fun row =>
            row.ordinal ≤ (sealedTo (run sha256 ops)).1).length,
          max (lastOrdinal (run sha256 ops).journal - (sealedTo (run sha256 ops)).1) 0⟩) := by
  have sound := sound_run sha256 ops
  generalize run sha256 ops = tables at sound ⊢
  have walked := walk_of_linked sound.ordered.distinct name sound.rising sound.linked 0
  rw [sealedTo_eq sound]
  constructor
  · intro report verified safe
    obtain ⟨last, counted, ended⟩ := walk_of_verified sound.rising verified
    obtain ⟨rfl, head⟩ := head_of_walk distinct name sound.rising ended
    have original := (head_of_walk sound.ordered.distinct name sound.rising walked).2
    exact contents_eq safe (head.symm.trans original)
  · intro some
    have rows : (between tables.journal 0 (lastOf start tables.seals).through).length =
        (tables.journal.filter fun row =>
          row.ordinal ≤ (lastOf start tables.seals).through).length := by
      unfold between
      rw [List.length_mergeSort]
      congr 1
      apply List.filter_congr
      intro row mem
      simp [sound.positive row mem]
    unfold verify
    rw [sound.rising.sorted, if_neg some]
    rw [show (⟨0, genesis, genesis⟩ : Anchor) = start from rfl, walked, Nat.zero_add]
    show Finding.verified ⟨_, (between tables.journal 0 _).length, _⟩ = _
    rw [rows]

end

/-! ### A rewritten era -/

/-! ### Where the seals stand -/

section

variable {sha256 : List UInt8 → Vector UInt8 32} {tables : Tables}

/-- What the operation appends. -/
def Op.appended : Op → Option Content
  | .append _ content => some content
  | _ => none

theorem sealJournal_journal : (sealJournal sha256 tables).journal = tables.journal := by
  unfold sealJournal
  dsimp only
  split <;> rfl

theorem sealDue_journal (every : Int) : (sealDue sha256 every tables).journal = tables.journal := by
  unfold sealDue
  dsimp only
  split <;> rfl

theorem contents_apply (op : Op) : (op.apply sha256 tables).journal.map (·.content) =
    tables.journal.map (·.content) ++ op.appended.toList := by
  cases op with
  | append era content => exact List.map_append
  | rollback => exact (List.append_nil _).symm
  | sealJournal => exact sealJournal_journal.symm ▸ (List.append_nil _).symm
  | sealDue every => exact (sealDue_journal every).symm ▸ (List.append_nil _).symm

theorem contents_run (ops : List Op) :
    (run sha256 ops).journal.map (·.content) = ops.filterMap Op.appended := by
  suffices from_tables : ∀ tables : Tables,
      (ops.foldl (Op.apply sha256) tables).journal.map (·.content) =
        tables.journal.map (·.content) ++ ops.filterMap Op.appended from from_tables ⟨0, [], []⟩
  induction ops with
  | nil => exact fun tables => (List.append_nil _).symm
  | cons op ops ih =>
    intro tables
    rw [List.foldl_cons, ih, contents_apply, List.append_assoc]
    cases added : op.appended with
    | none => rw [List.filterMap_cons_none added]; rfl
    | some content => rw [List.filterMap_cons_some added]; rfl

/-- The last seal's head is the chain over all it covers, whatever seals came before. -/
theorem Sound.sealed_head (sound : Sound sha256 tables) : (sealedTo tables).2 =
    chain sha256 genesis (contents tables.journal 0 (sealedTo tables).1) := by
  have distinct := sound.ordered.distinct
  have walked := walk_of_linked distinct "" sound.rising sound.linked 0
  rw [sealedTo_eq sound]
  exact (head_of_walk distinct "" sound.rising walked).2

theorem le_lastOrdinal {journal : List Row} {row : Row} (mem : row ∈ journal) :
    row.ordinal ≤ lastOrdinal journal := by
  have inside : row.ordinal ∈ journal.map (·.ordinal) := List.mem_map_of_mem mem
  unfold lastOrdinal
  cases most : (journal.map (·.ordinal)).max? with
  | none =>
    rw [List.max?_eq_none_iff.mp most] at inside
    cases inside
  | some last => exact (List.max?_eq_some_iff.mp most).2 _ inside

theorem Sound.sealJournal_covers (sound : Sound sha256 tables) {row : Row}
    (mem : row ∈ tables.journal) : row.ordinal ≤ (sealedTo (sealJournal sha256 tables)).1 := by
  have below := le_lastOrdinal mem
  unfold sealJournal
  dsimp only
  split
  · rename_i sealed
    exact below.trans sealed
  · rename_i unsealed
    have extended := sound.extend (by omega) (lastOrdinal_le sound)
    rw [sealedTo_eq extended]
    show row.ordinal ≤ (lastOf start (tables.seals ++ [_])).through
    rw [lastOf, List.getLast?_concat]
    exact below

theorem contents_all (sound : Sound sha256 tables) {through : Int}
    (covered : ∀ row ∈ tables.journal, row.ordinal ≤ through) :
    contents tables.journal 0 through = tables.journal.map (·.content) := by
  have all : between tables.journal 0 through = tables.journal := by
    refine (ordered_between sound.ordered.distinct).eq_of_mem sound.ordered fun row => ?_
    exact mem_between.trans
      ⟨fun h => h.1, fun mem => ⟨mem, sound.positive row mem, covered row mem⟩⟩
  rw [contents, all]

end

/-- However often the journal was sealed on the way, by whatever policy, and whatever was rolled
back: the head it is sealed to is that of the contents appended, in their order. -/
theorem head_of_appended (sha256 : List UInt8 → Vector UInt8 32) (ops : List Op) :
    (sealedTo (run sha256 (ops ++ [.sealJournal]))).2 =
      chain sha256 genesis (ops.filterMap Op.appended) := by
  have sound := sound_run sha256 ops
  have sealed := sound.apply .sealJournal
  have ran : run sha256 (ops ++ [.sealJournal]) =
      Op.apply sha256 (run sha256 ops) .sealJournal := List.foldl_append
  have kept := @contents_apply sha256 (run sha256 ops) .sealJournal
  rw [ran, sealed.sealed_head, contents_all sealed, kept, contents_run]
  · exact congrArg _ (List.append_nil _)
  · intro row mem
    exact sound.sealJournal_covers (sealJournal_journal ▸ mem)

theorem save_fits : (bytes "save".toList).length < 2 ^ 63 := by decide

theorem order_fits : (bytes "order".toList).length < 2 ^ 63 := by decide

theorem o1_fits : (bytes "o1".toList).length < 2 ^ 63 := by decide

theorem empty_fits : (bytes "\x7b\x7d".toList).length < 2 ^ 63 := by decide

def sampleContent : Content :=
  ⟨⟨"save".toList, save_fits⟩, ⟨"order".toList, order_fits⟩, ⟨"o1".toList, o1_fits⟩,
    some ⟨"\x7b\x7d".toList, empty_fits⟩, none⟩

/-- SHA-256 at the one input that is hashed for the sample row. -/
def sampleSha256 (message : List UInt8) : Vector UInt8 32 :=
  if message = packed genesis sampleContent then
    #v[0xf1, 0x98, 0xe0, 0x4b, 0x8, 0xe0, 0xc8, 0x90, 0x9c, 0xc8, 0xaa, 0x3, 0xe8, 0x10, 0xa6,
    0xe3, 0xba, 0xc3, 0x4e, 0x2d, 0x3, 0x3a, 0xe7, 0x95, 0x9c, 0x93, 0x6a, 0x2, 0x74, 0x33,
    0x7a, 0xc8]
  else Vector.replicate 32 1

def sampleOps : List Op := [.append 1 sampleContent, .sealJournal]

/-- The row, moved to another era. -/
def rewritten : List Row := [⟨1, 2, sampleContent⟩]

theorem sample_noCollision : NoCollision sampleSha256
    (hashed sampleSha256 rewritten (sealedTo (run sampleSha256 sampleOps)).1)
    (hashed sampleSha256 (run sampleSha256 sampleOps).journal
      (sealedTo (run sampleSha256 sampleOps)).1) := by
  constructor
  · decide +kernel
  · decide +kernel

/-- A row's era can be rewritten under a seal, and the walk still finds the journal intact. -/
theorem era_rewritten :
    verify sampleSha256 "hecks_journal_shop" rewritten (run sampleSha256 sampleOps).seals =
        .verified ⟨1, 1, 0⟩ ∧
      NoCollision sampleSha256
        (hashed sampleSha256 rewritten (sealedTo (run sampleSha256 sampleOps)).1)
        (hashed sampleSha256 (run sampleSha256 sampleOps).journal
          (sealedTo (run sampleSha256 sampleOps)).1) ∧
      rewritten ≠ (run sampleSha256 sampleOps).journal :=
  ⟨by decide +kernel, sample_noCollision, by decide +kernel⟩

/-- The rest of that row is as it was sealed. -/
theorem era_rewritten_contents :
    contents rewritten 0 (sealedTo (run sampleSha256 sampleOps)).1 =
      contents (run sampleSha256 sampleOps).journal 0
        (sealedTo (run sampleSha256 sampleOps)).1 :=
  (tamper_evidence sampleSha256 "hecks_journal_shop" sampleOps rewritten (by
    unfold Distinct
    decide)).1
    ⟨1, 1, 0⟩ (by decide +kernel) sample_noCollision

end Hecks.Host.Ledger
