import Hecks.Query.Token
import Hecks.Query.Named

/-! Paging through a cursor query: the pages a caller reads, each asked for with the token of
the one before, are the rows of the query without paging. -/
namespace Hecks.Query

open Paging (Sequenced Walk cut)

/-! ### The rows in sequence -/

/-- The value a token of the row names. -/
def positionOf (orderBy : Option OrderBy) (row : Row) : Json :=
  match orderBy with
  | none => .null
  | some order => keyOf order row

/-- One row follows another. -/
def comesAfter (orderBy : Option OrderBy) (a b : Row) : Bool :=
  follows a.1 a.2 orderBy (positionOf orderBy b) b.1

/-- The rows are ordered by values a position can be compared with. -/
def Comparable (orderBy : Option OrderBy) (rows : Rows) : Prop :=
  ∀ order ∈ orderBy, OfOneType (rows.map (keyOf order))

section

variable {escapes : Char → Bool} {order : OrderBy} {orderBy : Option OrderBy} {rows : Rows}

theorem ranked_numbers (numbers : ∀ key ∈ rows.map (keyOf order), key = .null ∨ IsNumber key) :
    Ranked (fun key => Decimal.place (asF64 key).unpack) (keyOf order) rows := by
  intro a ha b hb va vb
  have number : ∀ r ∈ rows, isNull (keyOf order r) = false → IsNumber (keyOf order r) := by
    intro r hr valued
    rcases numbers _ (List.mem_map_of_mem hr) with null | number
    · rw [null] at valued
      cases valued
    · exact number
  have na := number a ha va
  have nb := number b hb vb
  exact compareComparable_number na.isNumber nb.isNumber na.not_nan nb.not_nan

theorem ranked_strings (strings : ∀ key ∈ rows.map (keyOf order), key = .null ∨ ∃ s, key = .str s) :
    Ranked (fun key => key.asStr.getD "") (keyOf order) rows := by
  intro a ha b hb va vb
  have string : ∀ r ∈ rows, isNull (keyOf order r) = false → ∃ s, keyOf order r = .str s := by
    intro r hr valued
    rcases strings _ (List.mem_map_of_mem hr) with null | string
    · rw [null] at valued
      cases valued
    · exact string
  obtain ⟨s, hs⟩ := string a ha va
  obtain ⟨t, ht⟩ := string b hb vb
  rw [hs, ht]
  rfl

theorem Ranked.perm {κ : Type} [LinearOrder κ] {rank : Json → κ} {key : Row → Json}
    {others : Rows} (ranked : Ranked rank key rows) (perm : others.Perm rows) :
    Ranked rank key others := by
  intro a ha b hb
  exact ranked a (perm.mem_iff.mp ha) b (perm.mem_iff.mp hb)

theorem applyDeclaredOrder_sequenced {κ : Type} [LinearOrder κ] {rank : Json → κ}
    (ranked : Ranked rank (keyOf order) rows) (ascending : Ascending rows) :
    Sequenced (comesAfter (some order)) (applyDeclaredOrder rows order) :=
  sequenced_of_pairwise (ranked.perm (applyDeclaredOrder_perm rows order))
    (applyDeclaredOrder_pairwise ranked ascending)

/-- The rows of a query, in the order it declares, are a sequence. -/
theorem applyOrdering_sequenced {args : Json} (distinct : (rows.map Prod.fst).Nodup)
    (comparable : Comparable orderBy rows) :
    Sequenced (comesAfter orderBy) (applyOrdering rows orderBy none none args) := by
  have ascending := sortById_ascending distinct
  cases orderBy with
  | none =>
    refine ⟨ascending.imp fun less => ?_, ascending.imp fun less => ?_, ?_⟩
    · exact decide_eq_true less
    · exact decide_eq_false less.asymm
    · intro a ha
      exact decide_eq_false (lt_irrefl a.1)
  | some order =>
    rcases comparable order rfl with numbers | strings
    · exact applyDeclaredOrder_sequenced ((ranked_numbers numbers).perm (sortById_perm rows))
        ascending
    · exact applyDeclaredOrder_sequenced ((ranked_strings strings).perm (sortById_perm rows))
        ascending

theorem applyOrdering_perm (rows : Rows) (orderBy : Option OrderBy) (args : Json) :
    (applyOrdering rows orderBy none none args).Perm rows := by
  cases orderBy with
  | none => exact sortById_perm rows
  | some order => exact (applyDeclaredOrder_perm _ order).trans (sortById_perm rows)

/-- The rows behind a row's own token are those that follow the row. -/
theorem rowsAfter_tokenFor (comparable : Comparable orderBy rows) {a : Row} (ha : a ∈ rows) :
    rowsAfter escapes rows orderBy (some (tokenFor a.1 a.2 orderBy)) =
      .ok (rows.filter (comesAfter orderBy · a)) := by
  cases orderBy with
  | none =>
    have position : decode escapes (encode .null a.1) = .ok (.null, a.1) :=
      decode_encode (parse_pair readsAs_null a.1)
    simp only [rowsAfter, tokenFor, position]
    rfl
  | some order =>
    have decoded : ∃ held, decode escapes (encode (keyOf order a) a.1) = .ok (held, a.1) ∧
        isNull held = isNull (keyOf order a) ∧ ∀ other ∈ rows.map (keyOf order),
          isNull other = false → isNull (keyOf order a) = false →
            compareComparable other held = compareComparable other (keyOf order a) :=
      (comparable order rfl).decode_encode (List.mem_map_of_mem ha) a.1
    obtain ⟨held, position, null, compares⟩ := decoded
    have token : tokenFor a.1 a.2 (some order) = encode (keyOf order a) a.1 := rfl
    have same : ∀ b ∈ rows, follows b.1 b.2 (some order) held a.1 = comesAfter (some order) b a := by
      intro b hb
      have key := compares _ (List.mem_map_of_mem hb)
      change decide (sequence (keyOf order b) b.1 held a.1 order = .gt) =
        decide (sequence (keyOf order b) b.1 (keyOf order a) a.1 order = .gt)
      unfold sequence
      rw [null]
      cases nb : isNull (keyOf order b) with
      | true => rfl
      | false =>
        cases na : isNull (keyOf order a) with
        | true => rfl
        | false => simp [key nb na]
    simp only [rowsAfter, token, position]
    exact congrArg Except.ok (List.filter_congr same)

end

/-! ### What a page is asked with -/

def QueryConditionValue.reads : QueryConditionValue → List String
  | arg name => [name]
  | _ => []

def Limit.reads : Limit → List String
  | arg name => [name]
  | literal _ => []

/-- The arguments a query's own clauses read. -/
def QueryDef.reads (definition : QueryDef) : List String :=
  definition.conditions.flatMap (·.value.reads) ++
    definition.referenceHopConditions.flatMap (·.innerValue.reads) ++
    definition.limit.toList.flatMap Limit.reads ++
    definition.authorization.toList.map (·.tenantField)

/-- The arguments of the first page, with the token of the page before on every other. -/
def asking (fields : List (String × Json)) (after : Option String) : Json :=
  .object (fields ++ (after.map fun token => ("after", .str token)).toList)

/-- What the caller of a page sees: its rows, and the token of the next page. -/
def pageAt (escapes : Char → Bool) (store : Store) (definition : QueryDef)
    (fields : List (String × Json)) (after : Option String) :
    Except Refusal (Rows × Option String) :=
  (runPage escapes store definition (asking fields after)).map fun page => (page.rows, page.after)

/-- The same query without paging. -/
def unpaged (definition : QueryDef) : QueryDef :=
  { definition with cursor := false, limit := none, offset := none }

section

variable {escapes : Char → Bool} {store : Store} {definition : QueryDef}
  {fields : List (String × Json)} {after : Option String}

theorem get_asking {name : String} (other : name ≠ "after") :
    (asking fields after).get name = (Json.object fields).get name := by
  unfold asking Json.get
  cases after with
  | none => simp
  | some token => simp [List.find?_append, Ne.symm other]

theorem get_after (first : ∀ f ∈ fields, f.1 ≠ "after") :
    ((asking fields after).get "after").bind Json.asStr = after := by
  have none : fields.find? (fun f => f.1 = "after") = none := by
    apply List.find?_eq_none.mpr
    intro f hf
    simpa using first f hf
  unfold asking Json.get
  cases after with
  | none => simp [none]
  | some token => simp [List.find?_append, none, Json.asStr]

theorem resolve_asking {value : QueryConditionValue} (own : "after" ∉ value.reads) :
    value.resolve (asking fields after) = value.resolve (.object fields) := by
  cases value with
  | arg name =>
    have other : name ≠ "after" := by
      rintro rfl
      exact own (by simp [QueryConditionValue.reads])
    simp only [QueryConditionValue.resolve, get_asking other]
  | literal text => rfl
  | numericLiteral n => rfl
  | null => rfl

theorem resolveLimit_asking {limit : Limit} (own : "after" ∉ limit.reads) :
    resolveLimit limit (asking fields after) = resolveLimit limit (.object fields) := by
  cases limit with
  | arg name =>
    have other : name ≠ "after" := by
      rintro rfl
      exact own (by simp [Limit.reads])
    simp only [resolveLimit, get_asking other]
  | literal n => rfl

theorem authorize_asking (own : "after" ∉ definition.reads) :
    authorize definition (asking fields after) = authorize definition (.object fields) := by
  unfold authorize
  cases eq : definition.authorization with
  | none => rfl
  | some auth =>
    have other : auth.tenantField ≠ "after" := by
      rintro same
      apply own
      simp [QueryDef.reads, eq, same]
    simp only [get_asking other]

theorem conditionRows_asking (own : "after" ∉ definition.reads) (rows : Rows) :
    conditionRows definition (asking fields after) [] rows =
      conditionRows definition (.object fields) [] rows := by
  unfold conditionRows
  congr 1
  apply List.filter_congr
  intro r _
  rw [Bool.eq_iff_iff, List.all_eq_true, List.all_eq_true]
  refine forall₂_congr fun c hc => ?_
  have own' : "after" ∉ c.value.reads := by
    intro mem
    apply own
    simp only [QueryDef.reads, List.mem_append, List.mem_flatMap]
    exact .inl (.inl (.inl ⟨c, hc, mem⟩))
  rw [resolve_asking own']

theorem applyReferenceHops_asking {hops : List ReferenceHopCondition}
    (own : ∀ hop ∈ hops, "after" ∉ hop.innerValue.reads) (rows : Rows) :
    applyReferenceHops escapes store rows hops (asking fields after) =
      applyReferenceHops escapes store rows hops (.object fields) := by
  induction hops generalizing rows with
  | nil => rfl
  | cons hop hops ih =>
    have one : applyReferenceHop escapes store rows hop (asking fields after) =
        applyReferenceHop escapes store rows hop (.object fields) := by
      unfold applyReferenceHop
      rw [resolve_asking (own hop List.mem_cons_self)]
    unfold applyReferenceHops
    rw [one]
    congr 1
    funext kept
    exact ih (fun h hh => own h (List.mem_cons_of_mem _ hh)) kept

/-! ### One page -/

theorem widened_count {size : Nat} (small : size ≤ 2 ^ 62) :
    resolveLimit (.literal (Int64.ofNat size + 1)) (asking fields after) = size + 1 := by
  have one : Int64.ofNat size + 1 = Int64.ofNat (size + 1) := (Int64.ofNat_add size 1).symm
  simp only [resolveLimit, one]
  rw [Int64.toInt_ofNat_of_lt (by omega)]
  simp

/-- The rows fetched one past the page, cut at the page. -/
theorem splitPage_eq_cut {orderBy : Option OrderBy} {size : Nat} (positive : 0 < size)
    (rows : Rows) :
    splitPage (rows.take (size + 1)) orderBy size =
      cut (fun r => tokenFor r.1 r.2 orderBy) size rows := by
  unfold splitPage cut
  by_cases fits : rows.length ≤ size
  · rw [if_pos (by simp; omega), if_pos fits]
    simp [List.take_take, List.take_of_length_le fits]
  · rw [if_neg (by simp; omega), if_neg fits]
    simp [List.take_take]

/-- What every page of a query starts from: the rows that the first page's arguments keep. -/
structure Kept (escapes : Char → Bool) (store : Store) (definition : QueryDef)
    (fields : List (String × Json)) (kept : Rows) : Prop where
  authorized : authorize definition (.object fields) = .ok ()
  matched : ∃ held, store.scan definition.aggregate = some held ∧
    applyReferenceHops escapes store (conditionRows definition (.object fields) [] held)
      definition.referenceHopConditions (.object fields) = .ok kept

theorem kept_of_run {rows : Rows}
    (whole : run escapes store (unpaged definition) (.object fields) = .ok rows) :
    ∃ kept, Kept escapes store definition fields kept ∧
      rows = applyOrdering kept definition.orderBy none none (.object fields) := by
  obtain ⟨authorized, held, kept, scanned, hopped, ordered⟩ := run_eq_ok.mp whole
  refine ⟨kept, ⟨authorized, held, scanned, hopped⟩, ?_⟩
  simp only [unpaged, Bool.false_eq_true, if_false, Except.ok.injEq] at ordered
  exact ordered.symm

section

variable {limit : Limit} {kept rest : Rows}

theorem pageAt_eq_cut (paged : definition.cursor = true) (limited : definition.limit = some limit)
    (positive : 0 < resolveLimit limit (.object fields))
    (small : resolveLimit limit (.object fields) ≤ 2 ^ 62)
    (first : ∀ f ∈ fields, f.1 ≠ "after") (own : "after" ∉ definition.reads)
    (rows : Kept escapes store definition fields kept)
    (behind : rowsAfter escapes (applyOrdering kept definition.orderBy none none (.object fields))
      definition.orderBy after = .ok rest) :
    pageAt escapes store definition fields after =
      .ok (cut (fun r => tokenFor r.1 r.2 definition.orderBy)
        (resolveLimit limit (.object fields)) rest) := by
  have ownLimit : "after" ∉ limit.reads := by
    intro mem
    apply own
    simp [QueryDef.reads, limited, mem]
  have ownHops : ∀ hop ∈ definition.referenceHopConditions, "after" ∉ hop.innerValue.reads := by
    intro hop hh mem
    apply own
    simp only [QueryDef.reads, List.mem_append, List.mem_flatMap]
    exact .inl (.inl (.inr ⟨hop, hh, mem⟩))
  obtain ⟨authorized, held, scanned, hopped⟩ := rows
  have size : resolveLimit limit (asking fields after) = resolveLimit limit (.object fields) :=
    resolveLimit_asking ownLimit
  have fetched : run escapes store { definition with
      limit := some (.literal (Int64.ofNat (resolveLimit limit (.object fields)) + 1)) }
      (asking fields after) = .ok (rest.take (resolveLimit limit (.object fields) + 1)) := by
    apply run_eq_ok.mpr
    refine ⟨(authorize_asking own).trans authorized, held, kept, scanned, ?_, ?_⟩
    · exact (applyReferenceHops_asking ownHops _).trans
        ((congrArg (applyReferenceHops escapes store · _ _)
          (conditionRows_asking own held)).trans hopped)
    · simp only [paged, if_true]
      unfold cursorRows
      rw [get_after first]
      have behind' : rowsAfter escapes
          (applyOrdering kept definition.orderBy none none (asking fields after))
          definition.orderBy after = .ok rest := behind
      dsimp only
      rw [behind']
      exact congrArg (fun n => Except.ok (rest.take n)) (widened_count small)
  unfold pageAt runPage
  simp only [limited, size]
  rw [fetched]
  exact congrArg Except.ok (splitPage_eq_cut positive rest)

theorem filterEntries_distinct {entries : Rows} (distinct : (entries.map Prod.fst).Nodup)
    (field : String) (comparator : QueryComparator) (want : Json) :
    ((filterEntries entries field comparator want).map Prod.fst).Nodup := by
  apply ((sortById_perm _).map Prod.fst).nodup_iff.mpr
  exact distinct.sublist (List.filter_sublist.map Prod.fst)

theorem applyReferenceHops_distinct {hops : List ReferenceHopCondition} {args : Json}
    {entries : Rows} (distinct : (entries.map Prod.fst).Nodup)
    (hopped : applyReferenceHops escapes store entries hops args = .ok kept) :
    (kept.map Prod.fst).Nodup := by
  induction hops generalizing entries with
  | nil =>
    cases hopped
    exact distinct
  | cons hop hops ih =>
    obtain ⟨once, one, more⟩ := Reading.bind_eq_ok.mp hopped
    apply ih _ more
    obtain ⟨targets, -, one⟩ := Reading.bind_eq_ok.mp one
    obtain ⟨ids, -, one⟩ := Reading.bind_eq_ok.mp one
    cases one
    exact filterEntries_distinct distinct _ _ _

/-- A query answers no record twice. -/
theorem Kept.distinct (rows : Kept escapes store definition fields kept) :
    (kept.map Prod.fst).Nodup := by
  obtain ⟨-, held, scanned, hopped⟩ := rows
  apply applyReferenceHops_distinct _ hopped
  apply ((sortById_perm _).map Prod.fst).nodup_iff.mpr
  exact (store.distinct _ held scanned).sublist (List.filter_sublist.map Prod.fst)

/-- Following the tokens from the first page on visits every row of the query without paging,
once and in its order, up to a page that carries no token. -/
theorem pages_partition_rows {rows : Rows}
    (whole : run escapes store (unpaged definition) (.object fields) = .ok rows)
    (comparable : Comparable definition.orderBy rows) (paged : definition.cursor = true)
    (limited : definition.limit = some limit)
    (size : 1 ≤ resolveLimit limit (.object fields) ∧
      resolveLimit limit (.object fields) ≤ 2 ^ 62)
    (first : ∀ f ∈ fields, f.1 ≠ "after") (own : "after" ∉ definition.reads) :
    ∃ pages, Walk (pageAt escapes store definition fields) none pages ∧
      pages.flatten = rows ∧ (rows.map Prod.fst).Nodup := by
  obtain ⟨kept, base, rfl⟩ := kept_of_run whole
  have perm := applyOrdering_perm kept definition.orderBy (.object fields)
  have distinct : ((applyOrdering kept definition.orderBy none none (.object fields)).map
      Prod.fst).Nodup := (perm.map Prod.fst).nodup_iff.mpr base.distinct
  have comparable' : Comparable definition.orderBy kept := by
    intro order horder
    have keys := fun key => ((perm.map (keyOf order)).mem_iff (a := key)).symm
    rcases comparable order horder with numbers | strings
    · exact .inl fun key hk => numbers key ((keys key).mp hk)
    · exact .inr fun key hk => strings key ((keys key).mp hk)
  have page := fun after rest => @pageAt_eq_cut escapes store definition fields after limit kept
    rest paged limited size.1 size.2 first own base
  obtain ⟨pages, walk, joined⟩ := Paging.walk_rows
    (applyOrdering_sequenced base.distinct comparable') size.1 (page none _ rfl)
    (fun a ha => page _ _ (rowsAfter_tokenFor comparable ha))
  exact ⟨pages, walk, joined, distinct⟩

/-- A shop of three items, two of one rank. -/
def itemRows : Rows :=
  [("b", .object [("rank", .int 2)]), ("c", .object [("rank", .null)]),
    ("a", .object [("rank", .int 2)])]

def itemStore : Store where
  scan aggregate := if aggregate = "Shop::Item" then some itemRows else none
  distinct := by
    intro aggregate rows scanned
    split at scanned
    · cases scanned
      decide
    · cases scanned

def itemQuery : QueryDef where
  verb := "Shop::Item.Paged"
  aggregate := "Shop::Item"
  conditions := []
  referenceHopConditions := []
  orderBy := some ⟨"rank", true, .last⟩
  offset := none
  limit := some (.literal 1)
  cursor := true
  authorization := none

def itemAnswer : Rows :=
  [("b", .object [("rank", .int 2)]), ("a", .object [("rank", .int 2)]),
    ("c", .object [("rank", .null)])]

theorem item_answer_comparable : Comparable itemQuery.orderBy itemAnswer := by
  have numeral : (⟨false, ['2'], none, none⟩ : Json.Grammar.Numeral).Loose :=
    ⟨⟨by simp; decide, by simp, by simp⟩, .inr (by simp), .inl (by simp), by simp⟩
  have number : IsNumber (.int 2) :=
    .text numeral (.inl ⟨rfl, rfl⟩) (by decide) (by decide)
  have keys : itemAnswer.map (keyOf ⟨"rank", true, .last⟩) = [.int 2, .int 2, .null] := by
    with_unfolding_all rfl
  rintro order ⟨⟩
  left
  rw [keys]
  simp [number]

theorem item_pages_partition_rows :
    run (fun _ => false) itemStore (unpaged itemQuery) (.object []) = .ok itemAnswer ∧
      ∃ pages, Walk (pageAt (fun _ => false) itemStore itemQuery []) none pages ∧
        pages.flatten = itemAnswer ∧ (itemAnswer.map Prod.fst).Nodup := by
  have whole : run (fun _ => false) itemStore (unpaged itemQuery) (.object []) = .ok itemAnswer := by
    with_unfolding_all rfl
  refine ⟨whole, ?_⟩
  exact pages_partition_rows whole item_answer_comparable rfl rfl ⟨by decide, by decide⟩
    (by simp) (by decide)

end

end

end Hecks.Query
