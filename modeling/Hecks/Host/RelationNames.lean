import Hecks.Host.Naming
import Hecks.Host.Seals
import Hecks.Lib.Decimal
import Hecks.Lib.Segments
import Hecks.Lib.Utf8

/-! The names of a domain's relations in Postgres: qualified by the domain, and cut with a digest
behind them where they would be too long. -/
namespace Hecks.Host.RelationNames

open Slices

/-- Postgres's NAMEDATALEN-1 limit. -/
def identifierLimit : Nat := 63

/-- `while !full.is_char_boundary(keep) { keep -= 1; }`. -/
def keepFrom (full : List Char) : Nat → Nat
  | 0 => 0
  | keep + 1 => if (cut full (keep + 1)).isSome then keep + 1 else keepFrom full keep

/-- The label of a shape: the first six hexadecimal digits of its hash. -/
structure Label where
  text : List Char
  length : text.length = 6
  digits : ∀ c ∈ text, c.isDigit ∨ 'a' ≤ c ∧ c ≤ 'f'

section

-- The hash function, and `char::to_lowercase`.
variable (sha256 : List UInt8 → Vector UInt8 32) (lowercase : Char → List Char)

def suffixOf (full : List Char) : List Char := (Ledger.hex (sha256 (bytes full))).take 8

/-- The identifier a full name gets; `none` is a cut inside a character. -/
def identifier (full : List Char) : Option (List Char) :=
  if size full ≤ identifierLimit then some full
  else
    let suffix := suffixOf sha256 full
    (cut full (keepFrom full (identifierLimit - size suffix - 1))).map fun parts =>
      parts.1 ++ '_' :: suffix

def fullName (domain suffix : List Char) : List Char :=
  Naming.snake lowercase domain ++ '_' :: suffix

def qualifiedName (domain suffix : List Char) : Option (List Char) :=
  identifier sha256 (fullName lowercase domain suffix)

def eraText (era : Int) : List Char := (toString era).toList

def headView (domain storageName : List Char) : Option (List Char) :=
  qualifiedName sha256 lowercase domain (storageName ++ "_head".toList)

def headSnapshot (domain storageName : List Char) (era : Int) : Option (List Char) :=
  qualifiedName sha256 lowercase domain (storageName ++ "_head_snapshot_".toList ++ eraText era)

def headSnapshotTable (domain qualifiedAggregate : List Char) (era : Int) : Option (List Char) :=
  qualifiedName sha256 lowercase domain
    (Naming.storageName lowercase qualifiedAggregate ++ "_head_snapshot_".toList ++ eraText era)

def matview (domain storageName : List Char) (era : Int) (label : Label) : Option (List Char) :=
  qualifiedName sha256 lowercase domain
    (storageName ++ "_lineage_".toList ++ eraText era ++ '_' :: label.text)

/-- The relations of one aggregate at an era. -/
def relations (domain aggregate : List Char) (era : Int) (label : Label) :
    List (Option (List Char)) :=
  [headView sha256 lowercase domain (Naming.storageName lowercase aggregate),
    headSnapshotTable sha256 lowercase domain aggregate era,
    matview sha256 lowercase domain (Naming.storageName lowercase aggregate) era label]

end

/-! ### The cut -/

theorem keepFrom_boundary (full : List Char) (keep : Nat) :
    (cut full (keepFrom full keep)).isSome = true ∧ keepFrom full keep ≤ keep := by
  induction keep with
  | zero => cases full <;> exact ⟨rfl, Nat.le_refl 0⟩
  | succ keep ih =>
    rw [keepFrom]
    by_cases between : (cut full (keep + 1)).isSome = true
    · rw [if_pos between]
      exact ⟨between, Nat.le_refl _⟩
    · rw [if_neg between]
      exact ⟨ih.1, by omega⟩

theorem mem_hex {digest : Vector UInt8 32} {c : Char} (h : c ∈ Ledger.hex digest) :
    ∃ n < 16, c = Ledger.hexDigit n := by
  obtain ⟨b, -, mem⟩ := List.mem_flatMap.mp h
  have := b.toNat_lt
  obtain same | mem := List.mem_cons.mp mem
  · exact ⟨b.toNat / 16, by omega, same⟩
  · exact ⟨b.toNat % 16, by omega, List.mem_singleton.mp mem⟩

section

variable {sha256 : List UInt8 → Vector UInt8 32} {lowercase : Char → List Char}

theorem suffix_ascii {full : List Char} : ∀ c ∈ suffixOf sha256 full, c.toNat < 128 := by
  intro c mem
  obtain ⟨n, small, rfl⟩ := mem_hex (List.mem_of_mem_take mem)
  exact Ledger.hexDigit_small small

theorem suffix_joined {full : List Char} : '_' ∉ suffixOf sha256 full := by
  intro mem
  obtain ⟨n, small, same⟩ := mem_hex (List.mem_of_mem_take mem)
  have all : ∀ n : Fin 16, '_' ≠ Ledger.hexDigit n := by decide
  exact all ⟨n, small⟩ same

theorem suffix_length {full : List Char} : (suffixOf sha256 full).length = 8 := by
  have hex : (Ledger.hex (sha256 (bytes full))).length = 64 := by
    simp [Ledger.hex, List.length_flatMap]
  rw [suffixOf, List.length_take, hex]
  rfl

theorem suffix_size {full : List Char} : size (suffixOf sha256 full) = 8 := by
  rw [size_ascii suffix_ascii, suffix_length]

/-- A name that fits stays as it is; a longer one is cut between two characters. -/
theorem identifier_spec (sha256 : List UInt8 → Vector UInt8 32) (full : List Char) :
    ∃ name, identifier sha256 full = some name ∧ size name ≤ identifierLimit ∧
      (size full ≤ identifierLimit → name = full) ∧
      (identifierLimit < size full → ∃ before behind, full = before ++ behind ∧
        name = before ++ '_' :: suffixOf sha256 full) := by
  unfold identifier
  by_cases fits : size full ≤ identifierLimit
  · rw [if_pos fits]
    refine ⟨full, rfl, fits, fun _ => rfl, ?_⟩
    intro long
    omega
  · rw [if_neg fits]
    dsimp only
    obtain ⟨between, short⟩ :=
      keepFrom_boundary full (identifierLimit - size (suffixOf sha256 full) - 1)
    obtain ⟨parts, found⟩ := Option.isSome_iff_exists.mp between
    obtain ⟨eq, length⟩ := cut_some found
    rw [found]
    refine ⟨parts.1 ++ '_' :: suffixOf sha256 full, rfl, ?_, fun no => absurd no fits, ?_⟩
    · have one : Char.utf8Size '_' = 1 := rfl
      rw [suffix_size] at length short
      rw [size_append, size_cons, suffix_size, one, length]
      unfold identifierLimit at short ⊢
      omega
    · intro _
      exact ⟨parts.1, parts.2, eq, rfl⟩

end

/-! ### Texts by their last underscore -/

theorem last_underscore {front front' last last' : List Char}
    (same : front ++ '_' :: last = front' ++ '_' :: last') (h : '_' ∉ last) (h' : '_' ∉ last') :
    front = front' ∧ last = last' := by
  have turned := congrArg List.reverse same
  simp only [List.reverse_append, List.reverse_cons, List.append_assoc,
    List.singleton_append] at turned
  have cut := Text.splitOnceChars_append front.reverse (List.mem_reverse.not.mpr h)
  have cut' := Text.splitOnceChars_append front'.reverse (List.mem_reverse.not.mpr h')
  rw [turned, cut'] at cut
  simp only [Option.some.injEq, Prod.mk.injEq, List.reverse_inj] at cut
  exact ⟨cut.2.symm, cut.1.symm⟩

theorem mem_eraText {era : Int} {c : Char} (h : c ∈ eraText era) : c.isDigit = true ∨ c = '-' := by
  have natural : c ∈ Nat.toDigits 10 era.natAbs → c.isDigit = true :=
    Nat.isDigit_of_mem_toDigits (by norm_num) (by norm_num)
  rw [eraText, Decimal.toString_int, Decimal.signed] at h
  by_cases negative : decide (era < 0) = true
  · rw [if_pos negative] at h
    obtain rfl | mem := List.mem_cons.mp h
    · exact .inr rfl
    · exact .inl (natural mem)
  · rw [if_neg negative] at h
    exact .inl (natural h)

theorem eraText_joined {era : Int} : '_' ∉ eraText era := by
  intro mem
  obtain digit | sign := mem_eraText mem
  · cases digit
  · cases sign

theorem Label.joined (label : Label) : '_' ∉ label.text := by
  intro mem
  obtain digit | ⟨large, -⟩ := label.digits _ mem
  · cases digit
  · exact absurd large (by decide)

/-! ### Full names and what stands before their last underscore -/

inductive Kind where
  | head
  | snapshot
  | lineage
deriving DecidableEq

namespace Kind

def stem (joined : List Char) (era : Int) : Kind → List Char
  | head => joined
  | snapshot => joined ++ "_head_snapshot".toList
  | lineage => joined ++ "_lineage".toList ++ '_' :: eraText era

def last (era : Int) (label : Label) : Kind → List Char
  | head => "head".toList
  | snapshot => eraText era
  | lineage => label.text

def full (joined : List Char) (era : Int) (label : Label) (kind : Kind) : List Char :=
  kind.stem joined era ++ '_' :: kind.last era label

theorem last_joined (era : Int) (label : Label) (kind : Kind) : '_' ∉ kind.last era label := by
  cases kind with
  | head => exact show '_' ∉ "head".toList by decide
  | snapshot => exact eraText_joined
  | lineage => exact label.joined

variable {joined joined' : List Char} {era era' : Int} {label label' : Label} {kind kind' : Kind}

/-- A letter is no part of an era's text. -/
theorem eraText_ne {text : List Char} {c : Char} (mem : c ∈ text) (letter : ¬ c.isDigit = true)
    (plain : c ≠ '-') : eraText era ≠ text := by
  intro same
  rw [← same] at mem
  obtain digit | sign := mem_eraText mem
  · exact letter digit
  · exact plain sign

theorem eraText_ne_head : eraText era ≠ "head".toList :=
  eraText_ne (show 'h' ∈ "head".toList by decide) (by decide) (by decide)

theorem label_ne_head (label : Label) : label.text ≠ "head".toList := by
  intro same
  have length := label.length
  rw [same] at length
  cases length

theorem snapshot_ne_lineage :
    full joined era label snapshot ≠ full joined' era' label' lineage := by
  intro same
  obtain ⟨stems, -⟩ := last_underscore same eraText_joined label'.joined
  have split : joined ++ "_head_snapshot".toList =
      (joined ++ "_head".toList) ++ '_' :: "snapshot".toList := by
    rw [List.append_assoc]
    rfl
  rw [stem, stem, split] at stems
  obtain ⟨-, word⟩ := last_underscore stems (by decide) eraText_joined
  exact eraText_ne (show 's' ∈ "snapshot".toList by decide) (by decide) (by decide) word.symm

/-- A full name tells its kind, and the domain and aggregate joined by an underscore. -/
theorem full_inj (same : full joined era label kind = full joined' era' label' kind') :
    kind = kind' ∧ joined = joined' := by
  obtain ⟨stems, lasts⟩ :=
    last_underscore same (last_joined era label kind) (last_joined era' label' kind')
  cases kind with
  | head =>
    cases kind' with
    | head => exact ⟨rfl, stems⟩
    | snapshot => exact absurd lasts.symm eraText_ne_head
    | lineage => exact absurd lasts.symm (label_ne_head label')
  | snapshot =>
    cases kind' with
    | head => exact absurd lasts eraText_ne_head
    | snapshot => exact ⟨rfl, List.append_cancel_right stems⟩
    | lineage => exact absurd same snapshot_ne_lineage
  | lineage =>
    cases kind' with
    | head => exact absurd lasts (label_ne_head label)
    | snapshot => exact absurd same.symm snapshot_ne_lineage
    | lineage =>
      obtain ⟨front, -⟩ := last_underscore stems eraText_joined eraText_joined
      exact ⟨rfl, List.append_cancel_right front⟩

end Kind

section

variable (sha256 : List UInt8 → Vector UInt8 32) (lowercase : Char → List Char)

/-- The domain and the storage name of the aggregate, as every name of theirs begins. -/
def joinedName (domain aggregate : List Char) : List Char :=
  fullName lowercase domain (Naming.storageName lowercase aggregate)

def kinds : List Kind := [.head, .snapshot, .lineage]

theorem relations_eq (domain aggregate : List Char) (era : Int) (label : Label) :
    relations sha256 lowercase domain aggregate era label =
      (kinds.map (Kind.full (joinedName lowercase domain aggregate) era label)).map
        (identifier sha256) := by
  simp only [relations, kinds, headView, headSnapshotTable, matview, qualifiedName, fullName,
    joinedName, Kind.full, Kind.stem, Kind.last, List.map_cons, List.map_nil, List.append_assoc,
    List.cons_append]
  rfl

/-- The suffix of no over-long name is that of another, nor the digits of an era at hand. -/
structure NoCollision (fulls : List (List Char)) (eras : List Int) : Prop where
  suffixes : ∀ x ∈ fulls, ∀ y ∈ fulls, identifierLimit < size x → identifierLimit < size y →
    suffixOf sha256 x = suffixOf sha256 y → x = y
  eras : ∀ x ∈ fulls, identifierLimit < size x → ∀ era ∈ eras, suffixOf sha256 x ≠ eraText era

variable {sha256 lowercase} {fulls : List (List Char)} {eras : List Int}

theorem last_ne_suffix {y : List Char} {era : Int} {label : Label} {kind : Kind}
    (other : suffixOf sha256 y ≠ eraText era) : kind.last era label ≠ suffixOf sha256 y := by
  intro same
  have length : (suffixOf sha256 y).length = 8 := suffix_length
  cases kind with
  | head =>
    rw [← same] at length
    cases length
  | snapshot => exact other same.symm
  | lineage =>
    rw [← same, Kind.last, label.length] at length
    cases length

/-- Without a collision of suffixes, an identifier has one full name. -/
theorem identifier_inj (clear : NoCollision sha256 fulls eras) {joined joined' : List Char}
    {era era' : Int} {label label' : Label} {kind kind' : Kind}
    (listed : kind.full joined era label ∈ fulls) (listed' : kind'.full joined' era' label' ∈ fulls)
    (known : era ∈ eras) (known' : era' ∈ eras)
    (same : identifier sha256 (kind.full joined era label) =
      identifier sha256 (kind'.full joined' era' label')) :
    kind.full joined era label = kind'.full joined' era' label' := by
  obtain ⟨name, made, -, short, long⟩ := identifier_spec sha256 (kind.full joined era label)
  obtain ⟨name', made', -, short', long'⟩ := identifier_spec sha256 (kind'.full joined' era' label')
  rw [made, made', Option.some.injEq] at same
  subst same
  by_cases fits : size (kind.full joined era label) ≤ identifierLimit
  · by_cases fits' : size (kind'.full joined' era' label') ≤ identifierLimit
    · rw [← short fits, ← short' fits']
    · obtain ⟨before, behind, -, cut⟩ := long' (by omega)
      rw [short fits] at cut
      obtain ⟨-, lasts⟩ := last_underscore cut (Kind.last_joined era label kind) suffix_joined
      exact absurd lasts (last_ne_suffix (clear.eras _ listed' (by omega) era known))
  · obtain ⟨before, behind, -, cut⟩ := long (by omega)
    by_cases fits' : size (kind'.full joined' era' label') ≤ identifierLimit
    · rw [short' fits'] at cut
      obtain ⟨-, lasts⟩ := last_underscore cut (Kind.last_joined era' label' kind') suffix_joined
      exact absurd lasts (last_ne_suffix (clear.eras _ listed (by omega) era' known'))
    · obtain ⟨before', behind', -, cut'⟩ := long' (by omega)
      rw [cut] at cut'
      obtain ⟨-, suffixes⟩ := last_underscore cut' suffix_joined suffix_joined
      exact clear.suffixes _ listed _ listed' (by omega) (by omega) suffixes

/-- The identifiers of full names, none of which is cut inside a character. -/
theorem identifiers_made (sha256 : List UInt8 → Vector UInt8 32) (fulls : List (List Char)) :
    ∃ names : List (List Char), fulls.map (identifier sha256) = names.map some ∧
      ∀ name ∈ names, size name ≤ identifierLimit := by
  induction fulls with
  | nil => exact ⟨[], rfl, by simp⟩
  | cons full fulls ih =>
    obtain ⟨name, made, short, -⟩ := identifier_spec sha256 full
    obtain ⟨names, eq, shorter⟩ := ih
    refine ⟨name :: names, by rw [List.map_cons, List.map_cons, made, eq], ?_⟩
    intro other mem
    obtain rfl | mem := List.mem_cons.mp mem
    · exact short
    · exact shorter other mem

end

/-- Without a collision of suffixes, the relations of two pairs of a domain and an aggregate have six
names of at most 63 bytes, cut between characters, all of them different, exactly when the pairs do
not join to one text. -/
theorem relation_names_apart_iff (sha256 : List UInt8 → Vector UInt8 32)
    (lowercase : Char → List Char) (domain aggregate domain' aggregate' : List Char)
    (era era' : Int) (label label' : Label)
    (clear : NoCollision sha256
      (kinds.map (Kind.full (joinedName lowercase domain aggregate) era label) ++
        kinds.map (Kind.full (joinedName lowercase domain' aggregate') era' label')) [era, era']) :
    (∃ names : List (List Char), relations sha256 lowercase domain aggregate era label ++
        relations sha256 lowercase domain' aggregate' era' label' = names.map some ∧
      names.Nodup ∧ ∀ name ∈ names, size name ≤ identifierLimit) ↔
    joinedName lowercase domain aggregate ≠ joinedName lowercase domain' aggregate' := by
  rw [relations_eq, relations_eq, ← List.map_append]
  constructor
  · rintro ⟨names, eq, nodup, -⟩ joined
    have nodup : (names.map some).Nodup := nodup.map (Option.some_injective _)
    rw [← eq, joined, List.map_append] at nodup
    have apart := (List.nodup_append.mp nodup).2.2
    have head : Kind.full (joinedName lowercase domain' aggregate') era label .head =
        Kind.full (joinedName lowercase domain' aggregate') era' label' .head := rfl
    refine apart (identifier sha256
      (Kind.full (joinedName lowercase domain' aggregate') era label .head)) (by simp [kinds])
      (identifier sha256
        (Kind.full (joinedName lowercase domain' aggregate') era' label' .head)) (by simp [kinds]) ?_
    rw [head]
  · intro joined
    obtain ⟨names, eq, short⟩ := identifiers_made sha256
      (kinds.map (Kind.full (joinedName lowercase domain aggregate) era label) ++
        kinds.map (Kind.full (joinedName lowercase domain' aggregate') era' label'))
    refine ⟨names, eq, ?_, short⟩
    apply List.Nodup.of_map some
    rw [← eq]
    have each : ∀ joined era label, (kinds.map (Kind.full joined era label)).Nodup := by
      intro joined era label
      refine List.Nodup.map_on ?_ (show kinds.Nodup by decide)
      intro kind _ kind' _ same
      exact (Kind.full_inj same).1
    refine List.Nodup.map_on ?_ (List.nodup_append.mpr ⟨each _ _ _, each _ _ _, ?_⟩)
    · have known : ∀ x ∈ kinds.map (Kind.full (joinedName lowercase domain aggregate) era label) ++
          kinds.map (Kind.full (joinedName lowercase domain' aggregate') era' label'),
          ∃ j e l k, e ∈ [era, era'] ∧ Kind.full j e l k = x := by
        intro x mem
        obtain mem | mem := List.mem_append.mp mem
        · obtain ⟨kind, -, rfl⟩ := List.mem_map.mp mem
          exact ⟨_, era, label, kind, by simp, rfl⟩
        · obtain ⟨kind, -, rfl⟩ := List.mem_map.mp mem
          exact ⟨_, era', label', kind, by simp, rfl⟩
      intro x mem y mem' same
      obtain ⟨_, _, _, _, listed, rfl⟩ := known x mem
      obtain ⟨_, _, _, _, listed', rfl⟩ := known y mem'
      exact identifier_inj clear mem mem' listed listed' same
    · intro x mem y mem' same
      obtain ⟨kind, -, rfl⟩ := List.mem_map.mp mem
      obtain ⟨kind', -, rfl⟩ := List.mem_map.mp mem'
      exact joined (Kind.full_inj same).2

def zeroDigest (_ : List UInt8) : Vector UInt8 32 := Vector.replicate 32 0

/-- The domains Shop and ShopOrder: their aggregates OrderLine and Line have one head view. -/
theorem order_line_collides :
    Naming.snake (fun c => [c.toLower]) "Shop".toList ≠
        Naming.snake (fun c => [c.toLower]) "ShopOrder".toList ∧
      Naming.storageName (fun c => [c.toLower]) "Shop::OrderLine".toList ≠
        Naming.storageName (fun c => [c.toLower]) "ShopOrder::Line".toList ∧
      headView zeroDigest (fun c => [c.toLower]) "Shop".toList
          (Naming.storageName (fun c => [c.toLower]) "Shop::OrderLine".toList) =
        some "shop_order_line_head".toList ∧
      headView zeroDigest (fun c => [c.toLower]) "ShopOrder".toList
          (Naming.storageName (fun c => [c.toLower]) "ShopOrder::Line".toList) =
        some "shop_order_line_head".toList := by
  refine ⟨by decide, by decide, rfl, rfl⟩

/-- Names that all fit meet no suffix. -/
theorem noCollision_of_short {sha256 : List UInt8 → Vector UInt8 32} {fulls : List (List Char)}
    {eras : List Int} (short : ∀ x ∈ fulls, size x ≤ identifierLimit) :
    NoCollision sha256 fulls eras where
  suffixes := by
    intro x mem y _ long
    have := short x mem
    omega
  eras := by
    intro x mem long
    have := short x mem
    omega

def sixZeros : Label where
  text := List.replicate 6 '0'
  length := rfl
  digits := by
    intro c mem
    obtain rfl := List.eq_of_mem_replicate mem
    exact .inl rfl

/-- Two aggregates of one domain. -/
theorem shop_names_apart :
    (∃ names : List (List Char),
      relations zeroDigest (fun c => [c.toLower]) "Shop".toList "Shop::Order".toList 1 sixZeros ++
        relations zeroDigest (fun c => [c.toLower]) "Shop".toList "Shop::Line".toList 1 sixZeros =
          names.map some ∧ names.Nodup ∧ ∀ name ∈ names, size name ≤ identifierLimit) ↔
    joinedName (fun c => [c.toLower]) "Shop".toList "Shop::Order".toList ≠
      joinedName (fun c => [c.toLower]) "Shop".toList "Shop::Line".toList := by
  apply relation_names_apart_iff
  apply noCollision_of_short
  decide

end Hecks.Host.RelationNames
