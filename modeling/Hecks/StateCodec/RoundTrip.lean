import Hecks.StateCodec.Codec

/-! A round trip through the store keeps a state, and the check knows what it answers. -/
namespace Hecks.StateCodec

variable {S L : Type} {roundTrip : L → { v : State S L // Ready v }}

theorem attach_map_eq {α β : Type} (xs : List α) (f : α → β) :
    (xs.attach.map fun x => f x.1) = xs.map f :=
  List.attach_map_val

theorem map_eq_self {α : Type} {xs : List α} {f : α → α} (h : ∀ x ∈ xs, f x = x) :
    xs.map f = xs :=
  (List.map_congr_left h).trans (List.map_id xs)

/-! ### Encoding, part by part -/

theorem encodeValue_list (items : List (State S L)) :
    encodeValue roundTrip (.list items) = .list (items.map (encodeValue roundTrip)) := by
  rw [encodeValue, attach_map_eq]

theorem encodeValue_hash (entries : List (Key × State S L)) :
    encodeValue roundTrip (.hash entries) = .hash (Hash.setAll .empty (entries.map fun e =>
      (Key.string e.1.text, encodeValue roundTrip e.2))).entries := by
  have parts : (entries.attach.map fun e =>
      (Key.string e.1.1.text, encodeValue roundTrip e.1.2)) =
        entries.map fun e => (Key.string e.1.text, encodeValue roundTrip e.2) :=
    attach_map_eq entries fun e => (Key.string e.1.text, encodeValue roundTrip e.2)
  rw [encodeValue, parts]

theorem encodeValue_fields (fields : List (String × State S L)) :
    encodeValue roundTrip (.value fields) = .hash (Hash.setAll .empty (fields.map fun f =>
      (Key.string f.1, encodeValue roundTrip f.2))).entries := by
  have parts : (fields.attach.map fun f => (Key.string f.1.1, encodeValue roundTrip f.1.2)) =
      fields.map fun f => (Key.string f.1, encodeValue roundTrip f.2) :=
    attach_map_eq fields fun f => (Key.string f.1, encodeValue roundTrip f.2)
  rw [encodeValue, parts]

theorem ready_pairs {pairs : List (Key × State S L)} (strings : ∀ p ∈ pairs, ∃ t, p.1 = .string t)
    (each : ∀ p ∈ pairs, Ready p.2) : Ready (.hash (Hash.setAll .empty pairs).entries) := by
  have from_pairs : ∀ e ∈ (Hash.setAll (.empty : Hash Key (State S L)) pairs).entries,
      e ∈ pairs := by
    intro e mem
    cases Hash.mem_entries_setAll mem with
    | inl none => cases none
    | inr there => exact there
  exact .hash (fun e mem => strings e (from_pairs e mem)) (Hash.distinct _)
    fun e mem => each e (from_pairs e mem)

/-- Whatever is stored is JSON. -/
theorem ready_encodeValue (v : State S L) : Ready (encodeValue roundTrip v) := by
  induction v using State.induction with
  | nil =>
    rw [encodeValue]
    exact .nil
  | scalar s =>
    rw [encodeValue]
    exact .scalar s
  | leaf l =>
    rw [encodeValue]
    exact (roundTrip l).2
  | list items ih =>
    rw [encodeValue_list]
    apply Ready.list
    intro i mem
    obtain ⟨j, there, rfl⟩ := List.mem_map.mp mem
    exact ih j there
  | hash entries ih =>
    rw [encodeValue_hash]
    apply ready_pairs
    · intro p mem
      obtain ⟨e, -, rfl⟩ := List.mem_map.mp mem
      exact ⟨_, rfl⟩
    · intro p mem
      obtain ⟨e, there, rfl⟩ := List.mem_map.mp mem
      exact ih e there
  | value fields ih =>
    rw [encodeValue_fields]
    apply ready_pairs
    · intro p mem
      obtain ⟨f, -, rfl⟩ := List.mem_map.mp mem
      exact ⟨_, rfl⟩
    · intro p mem
      obtain ⟨f, there, rfl⟩ := List.mem_map.mp mem
      exact ih f there

/-- Keys of one text are one String. -/
theorem encodeValue_pairs {pairs : List (Key × State S L)} {entries : List (Key × State S L)}
    (once : (entries.map Prod.fst).Nodup)
    (same : (pairs.map fun p => (Key.string p.1.text, encodeValue roundTrip p.2)) = entries) :
    encodeValue roundTrip (.hash pairs) = .hash entries := by
  rw [encodeValue_hash, same, Hash.entries_setAll once]

/-- JSON is stored as it is. -/
theorem encodeValue_ready {v : State S L} (h : Ready v) : encodeValue roundTrip v = v := by
  induction h with
  | nil => rw [encodeValue]
  | scalar s => rw [encodeValue]
  | list each ih =>
    rw [encodeValue_list, map_eq_self ih]
  | hash strings once each ih =>
    apply encodeValue_pairs once
    apply map_eq_self
    intro e mem
    obtain ⟨t, key⟩ := strings e mem
    exact Prod.ext (by rw [key]; rfl) (ih e mem)

/-! ### Decoding, part by part -/

section

variable {a : Aggregate} {fields : Fields} {raw : List (Key × State S L)} {top : Bool}

/-- What an entry is respelled to, where it is not skipped. -/
def respell (a : Aggregate) (fields : Fields) (top : Bool) (e : Key × State S L) :
    Key × State S L :=
  match fields.get e.1.text with
  | some field => (.symbol e.1.text, decodeField a field e.2)
  | none => (if top then .symbol e.1.text else e.1, e.2)

theorem respell_declared {e : Key × State S L} {field : Option Attribute}
    (h : fields.get e.1.text = some field) :
    respell a fields top e = (.symbol e.1.text, decodeField a field e.2) := by
  rw [respell, h]

theorem respell_undeclared {e : Key × State S L} (h : fields.get e.1.text = none) :
    respell a fields top e = (if top then .symbol e.1.text else e.1, e.2) := by
  rw [respell, h]

theorem decodeHash_eq (a : Aggregate) (fields : Fields) (raw : List (Key × State S L))
    (top : Bool) : decodeHash a fields raw top = (Hash.setAll .empty (raw.flatMap fun e =>
      if isSkipped raw e.1 then [] else [respell a fields top e])).entries := by
  rw [decodeHash]
  congr 2
  refine (List.flatMap_subtype ?_).trans (by rw [List.unattach_attach])
  intro e mem
  split
  · rfl
  · split
    · rename_i field declared
      rw [respell_declared declared]
    · rename_i undeclared
      rw [respell_undeclared undeclared]

/-- Where no key is in two spellings, each entry is respelled. -/
theorem decodeHash_unskipped (apart : ∀ e ∈ raw, isSkipped raw e.1 = false) :
    decodeHash a fields raw top =
      (Hash.setAll .empty (raw.map (respell a fields top))).entries := by
  rw [decodeHash_eq, List.map_eq_flatMap]
  congr 2
  apply List.flatMap_congr
  intro e mem
  rw [apart e mem]
  rfl

variable {attr : Attribute} {v : State S L}

theorem decodeField_reference (h : (v.isNil || attr.reference) = true) :
    decodeField a (some attr) v = v := by
  rw [decodeField.eq_def]
  dsimp only
  rw [if_pos h]

theorem decodeField_items {items : List (State S L)} (h : attr.reference = false)
    (list : attr.list = true) : decodeField a (some attr) (.list items) =
      .list (items.map (decodeComposite a attr.type)) := by
  rw [decodeField, if_neg (by rw [h]; exact Bool.false_ne_true), if_pos list]
  congr 1
  exact attach_map_eq items (decodeComposite a attr.type)

theorem decodeField_unlisted (list : attr.list = true) (other : ∀ items, v ≠ .list items) :
    decodeField a (some attr) v = v := by
  rw [decodeField.eq_def]
  dsimp only
  rw [if_pos list]
  split
  · rfl
  · split
    · rename_i items _
      exact absurd rfl (other items)
    · rfl

theorem decodeField_single (h : (v.isNil || attr.reference) = false) (single : attr.list = false) :
    decodeField a (some attr) v = decodeComposite a attr.type v := by
  rw [decodeField.eq_def]
  dsimp only
  rw [if_neg (by rw [h]; exact Bool.false_ne_true),
    if_neg (by rw [single]; exact Bool.false_ne_true)]

theorem decodeComposite_other {type : String} (other : ∀ entries, v ≠ .hash entries) :
    decodeComposite a type v = v := by
  rw [decodeComposite.eq_def]
  split
  · rename_i entries
    exact absurd rfl (other entries)
  · rfl

/-- Both walks find the same fields under a type. -/
theorem decodeComposite_hash {type : String} (entries : List (Key × State S L)) :
    decodeComposite a type (.hash entries) = (compositeFields a type).elim (.hash entries)
      fun fields => .hash (decodeHash a fields entries false) := by
  rw [decodeComposite, compositeFields]
  cases findEntity type a.entities with
  | some entity => rfl
  | none =>
    cases valueObjectFor a type with
    | some v => rfl
    | none => rfl

/-! ### The check, part by part -/

/-- An entry that the check finds decoded. -/
def EntryDecoded (a : Aggregate) (fields : Fields) (top : Bool) (e : Key × State S L) : Prop :=
  match e.1 with
  | .symbol text => ∀ field, fields.get text = some field → fieldDecoded a field e.2 = true
  | key => top = false ∧ fields.get key.text = none

theorem hashDecoded_iff {hash : List (Key × State S L)} :
    hashDecoded a fields hash top = true ↔ ∀ e ∈ hash, EntryDecoded a fields top e := by
  rw [hashDecoded, List.all_eq_true]
  constructor
  · rintro all ⟨key, value⟩ mem
    have here := all ⟨_, mem⟩ (List.mem_attach _ _)
    unfold EntryDecoded
    cases key with
    | symbol text =>
      dsimp only at here ⊢
      cases held : fields.get text with
      | none => simp
      | some field => simpa [held] using here
    | string text => simpa [Key.text] using here
    | other text => simpa [Key.text] using here
  · rintro all ⟨⟨key, value⟩, mem⟩ -
    have here := all _ mem
    unfold EntryDecoded at here
    cases key with
    | symbol text =>
      dsimp only at here ⊢
      cases held : fields.get text with
      | none => rfl
      | some field => simpa [held] using here
    | string text => simpa [Key.text] using here
    | other text => simpa [Key.text] using here

theorem compositeDecoded_hash {type : String} (entries : List (Key × State S L)) :
    compositeDecoded a type (.hash entries) = (compositeFields a type).elim true
      fun fields => hashDecoded a fields entries false := by
  rw [compositeDecoded]
  cases compositeFields a type with
  | none => rfl
  | some fields => rfl

theorem compositeDecoded_other {type : String} (other : ∀ entries, v ≠ .hash entries) :
    compositeDecoded a type v = true := by
  rw [compositeDecoded.eq_def]
  split
  · rename_i entries
    exact absurd rfl (other entries)
  · rfl

theorem listDecoded_iff {type : String} {items : List (State S L)} :
    listDecoded a type items = true ↔ ∀ i ∈ items, compositeDecoded a type i = true := by
  rw [listDecoded, List.all_eq_true]
  constructor
  · intro all i mem
    have here := all ⟨i, mem⟩ (List.mem_attach _ _)
    cases i with
    | hash entries =>
      rw [compositeDecoded_hash]
      dsimp only at here
      cases found : compositeFields a type with
      | none => rfl
      | some fields =>
        rw [found] at here
        exact here
    | _ => exact compositeDecoded_other nofun
  · rintro all ⟨i, mem⟩ -
    have here := all i mem
    cases i with
    | hash entries =>
      rw [compositeDecoded_hash] at here
      dsimp only
      cases found : compositeFields a type with
      | none => rfl
      | some fields =>
        rw [found] at here
        exact here
    | _ => rfl

theorem fieldDecoded_reference (h : (v.isNil || attr.reference) = true) :
    fieldDecoded a (some attr) v = true := by
  rw [fieldDecoded.eq_def]
  dsimp only
  rw [if_pos h]

theorem fieldDecoded_items {items : List (State S L)} (h : attr.reference = false)
    (list : attr.list = true) :
    fieldDecoded a (some attr) (.list items) = listDecoded a attr.type items := by
  rw [fieldDecoded, if_neg (by rw [h]; exact Bool.false_ne_true), if_pos list]

theorem fieldDecoded_unlisted (list : attr.list = true) (other : ∀ items, v ≠ .list items) :
    fieldDecoded a (some attr) v = true := by
  rw [fieldDecoded.eq_def]
  dsimp only
  rw [if_pos list]
  split
  · rfl
  · split
    · rename_i items _
      exact absurd rfl (other items)
    · rfl

theorem fieldDecoded_single (h : (v.isNil || attr.reference) = false) (single : attr.list = false) :
    fieldDecoded a (some attr) v = compositeDecoded a attr.type v := by
  rw [fieldDecoded.eq_def]
  dsimp only
  rw [if_neg (by rw [h]; exact Bool.false_ne_true),
    if_neg (by rw [single]; exact Bool.false_ne_true)]

end

/-! ### A field, by what its declaration and its value are -/

section

variable {a : Aggregate} {v : State S L}

/-- How a field is walked: not at all, element by element, or as one composite. -/
inductive Walk (a : Aggregate) : Option Attribute → State S L → Prop
  | kept {field : Option Attribute} {v : State S L} (decode : decodeField a field v = v)
      (check : fieldDecoded a field v = true) : Walk a field v
  | items {attr : Attribute} {items : List (State S L)}
      (decode : decodeField a (some attr) (.list items) =
        .list (items.map (decodeComposite a attr.type)))
      (check : ∀ items' : List (State S L), fieldDecoded a (some attr) (.list items') =
        listDecoded a attr.type items') : Walk a (some attr) (.list items)
  | composite {attr : Attribute} {v : State S L}
      (decode : decodeField a (some attr) v = decodeComposite a attr.type v)
      (check : ∀ entries : List (Key × State S L), fieldDecoded a (some attr) (.hash entries) =
        compositeDecoded a attr.type (.hash entries))
      (check' : fieldDecoded a (some attr) v = compositeDecoded a attr.type v) :
      Walk a (some attr) v

theorem walk (field : Option Attribute) (v : State S L) : Walk a field v := by
  cases field with
  | none => exact .kept (by rw [decodeField]) (by rw [fieldDecoded])
  | some attr =>
    by_cases plain : (v.isNil || attr.reference) = true
    · exact .kept (decodeField_reference plain) (fieldDecoded_reference plain)
    · have walked : (v.isNil || attr.reference) = false := by simpa using plain
      have resolved := (Bool.or_eq_false_iff.mp walked).2
      by_cases list : attr.list = true
      · cases v with
        | list items =>
          exact .items (decodeField_items resolved list) fun _ => fieldDecoded_items resolved list
        | _ =>
          refine .kept (decodeField_unlisted list ?_) (fieldDecoded_unlisted list ?_)
          all_goals intro items same; cases same
      · have single : attr.list = false := by simpa using list
        refine .composite (decodeField_single walked single) ?_ (fieldDecoded_single walked single)
        intro entries
        exact fieldDecoded_single (by rw [resolved]; rfl) single

end

/-! ### What is decoded is stored as it was -/

section

variable (roundTrip) {a : Aggregate}

/-- Entries whose values are stored as they were are stored as they were. -/
theorem encode_decodeHash {fields : Fields} {entries : List (Key × State S L)} {top : Bool}
    (strings : ∀ e ∈ entries, ∃ t, e.1 = .string t) (once : (entries.map Prod.fst).Nodup)
    (each : ∀ e ∈ entries, Ready e.2)
    (decoded : ∀ e ∈ entries, ∀ field, encodeValue roundTrip (decodeField a field e.2) = e.2) :
    encodeValue roundTrip (.hash (decodeHash a fields entries top)) = .hash entries := by
  have apart : ∀ e ∈ entries, isSkipped entries e.1 = false := by
    intro e mem
    obtain ⟨t, key⟩ := strings e mem
    rw [key, isSkipped, List.any_eq_false]
    intro d there
    obtain ⟨u, key'⟩ := strings d there
    rw [key']
    simp
  have text : ∀ e : Key × State S L, (respell a fields top e).1.text = e.1.text := by
    intro e
    unfold respell
    split
    · rfl
    · split
      · rfl
      · rfl
  have back : (entries.map (respell a fields top)).map (fun p =>
      (Key.string p.1.text, encodeValue roundTrip p.2)) = entries := by
    rw [List.map_map]
    apply map_eq_self
    intro e mem
    obtain ⟨t, key⟩ := strings e mem
    refine Prod.ext ?_ ?_
    · show Key.string (respell a fields top e).1.text = e.1
      rw [text, key]
      rfl
    · show encodeValue roundTrip (respell a fields top e).2 = e.2
      cases declared : fields.get e.1.text with
      | some field =>
        rw [respell_declared declared]
        exact decoded e mem field
      | none =>
        rw [respell_undeclared declared]
        exact encodeValue_ready (each e mem)
  have apart' : ((entries.map (respell a fields top)).map Prod.fst).Nodup := by
    -- two keys of one text would be one String
    have texts : (entries.map (respell a fields top)).map (fun p => Key.string p.1.text) =
        entries.map Prod.fst := by
      conv_rhs => rw [← back, List.map_map]
      rfl
    have distinct : ((entries.map (respell a fields top)).map
        fun p => Key.string p.1.text).Nodup := by
      rw [texts]
      exact once
    have split : (fun p : Key × State S L => Key.string p.1.text) =
        (fun k : Key => Key.string k.text) ∘ Prod.fst := rfl
    rw [split, ← List.map_map] at distinct
    exact distinct.of_map
  rw [decodeHash_unskipped apart, Hash.entries_setAll apart']
  exact encodeValue_pairs once back

/-- A field is stored as it was where its type, or its elements' type, is. -/
theorem encode_decodeField {v : State S L} (ready : Ready v)
    (composite : ∀ type, encodeValue roundTrip (decodeComposite a type v) = v)
    (items : ∀ items, v = .list items → ∀ type, ∀ i ∈ items,
      encodeValue roundTrip (decodeComposite a type i) = i) (field : Option Attribute) :
    encodeValue roundTrip (decodeField a field v) = v := by
  cases walk (a := a) field v with
  | kept decode => rw [decode, encodeValue_ready ready]
  | items decode =>
    rw [decode, encodeValue_list, List.map_map]
    exact congrArg State.list (map_eq_self (items _ rfl _))
  | composite decode => rw [decode, composite]

theorem encode_decoded_plain {v : State S L} (ready : Ready v) (hash : ∀ entries, v ≠ .hash entries)
    (list : ∀ items, v ≠ .list items) :
    (∀ type, encodeValue roundTrip (decodeComposite a type v) = v) ∧
      ∀ field, encodeValue roundTrip (decodeField a field v) = v := by
  have kept : ∀ type, encodeValue roundTrip (decodeComposite a type v) = v := by
    intro type
    rw [decodeComposite_other hash, encodeValue_ready ready]
  exact ⟨kept, encode_decodeField roundTrip ready kept fun items equal => absurd equal (list items)⟩

theorem encode_decoded (v : State S L) (ready : Ready v) :
    (∀ type, encodeValue roundTrip (decodeComposite a type v) = v) ∧
      ∀ field, encodeValue roundTrip (decodeField a field v) = v := by
  induction v using State.induction with
  | list items ih =>
    have kept : ∀ type, encodeValue roundTrip (decodeComposite a type (.list items)) =
        .list items := by
      intro type
      rw [decodeComposite_other (by intro entries equal; cases equal), encodeValue_ready ready]
    refine ⟨kept, encode_decodeField roundTrip ready kept ?_⟩
    intro items' equal type i mem
    cases equal
    cases ready with
    | list each => exact (ih i mem (each i mem)).1 type
  | hash entries ih =>
    have composite : ∀ type, encodeValue roundTrip (decodeComposite a type (.hash entries)) =
        .hash entries := by
      intro type
      rw [decodeComposite_hash]
      cases compositeFields a type with
      | none => exact encodeValue_ready ready
      | some fields =>
        cases ready with
        | hash strings once each =>
          exact encode_decodeHash roundTrip strings once each fun e mem =>
            (ih e mem (each e mem)).2
    refine ⟨composite, encode_decodeField roundTrip ready composite ?_⟩
    intro items equal
    cases equal
  | nil => exact encode_decoded_plain roundTrip ready nofun nofun
  | scalar s => exact encode_decoded_plain roundTrip ready nofun nofun
  | leaf l => exact encode_decoded_plain roundTrip ready nofun nofun
  | value fields => exact encode_decoded_plain roundTrip ready nofun nofun

/-- What is decoded and stored again is what was stored. -/
theorem encode_decode {v : State S L} (ready : Ready v) :
    encodeValue roundTrip (decode a v) = v := by
  unfold decode
  split
  · cases ready with
    | hash strings once each =>
      exact encode_decodeHash roundTrip strings once each fun e mem =>
        (encode_decoded roundTrip e.2 (each e mem)).2
  · exact encodeValue_ready ready

end

/-! ### What is decoded passes the check -/

section

variable {a : Aggregate}

theorem entryDecoded_respell {fields : Fields} {top : Bool} {e : Key × State S L}
    (decoded : ∀ field, fieldDecoded a field (decodeField a field e.2) = true) :
    EntryDecoded a fields top (respell a fields top e) := by
  cases declared : fields.get e.1.text with
  | some field =>
    rw [respell_declared declared]
    intro other same
    cases declared.symm.trans same
    exact decoded field
  | none =>
    rw [respell_undeclared declared]
    cases top with
    | true =>
      intro field same
      cases declared.symm.trans same
    | false =>
      obtain ⟨key, value⟩ := e
      cases key with
      | symbol text =>
        intro field same
        cases declared.symm.trans same
      | string text => exact ⟨rfl, declared⟩
      | other text => exact ⟨rfl, declared⟩

/-- Entries whose values pass the check once decoded pass it once decoded. -/
theorem hashDecoded_decodeHash {fields : Fields} {raw : List (Key × State S L)} {top : Bool}
    (decoded : ∀ e ∈ raw, ∀ field, fieldDecoded a field (decodeField a field e.2) = true) :
    hashDecoded a fields (decodeHash a fields raw top) top = true := by
  apply hashDecoded_iff.mpr
  intro e mem
  rw [decodeHash_eq] at mem
  cases Hash.mem_entries_setAll mem with
  | inl none => cases none
  | inr there =>
    obtain ⟨d, listed, here⟩ := List.mem_flatMap.mp there
    split at here
    · cases here
    · cases List.mem_singleton.mp here
      exact entryDecoded_respell (decoded d listed)

theorem fieldDecoded_decodeField {v : State S L}
    (composite : ∀ type, compositeDecoded a type (decodeComposite a type v) = true)
    (items : ∀ items, v = .list items → ∀ type, ∀ i ∈ items,
      compositeDecoded a type (decodeComposite a type i) = true) (field : Option Attribute) :
    fieldDecoded a field (decodeField a field v) = true := by
  cases walk (a := a) field v with
  | kept decode check => rw [decode, check]
  | items decode check =>
    rw [decode, check]
    apply listDecoded_iff.mpr
    intro i mem
    obtain ⟨j, listed, rfl⟩ := List.mem_map.mp mem
    exact items _ rfl _ j listed
  | composite decode check check' =>
    rename_i attr
    have passed := composite attr.type
    rw [decode]
    cases v with
    | hash entries =>
      rw [decodeComposite_hash] at passed ⊢
      cases found : compositeFields a attr.type with
      | none =>
        rw [found] at passed
        exact (check entries).trans passed
      | some fields =>
        rw [found] at passed
        exact (check _).trans passed
    | _ =>
      rw [decodeComposite_other (by intro entries equal; cases equal)] at passed ⊢
      exact check'.trans passed

theorem decoded_plain {v : State S L} (hash : ∀ entries, v ≠ .hash entries)
    (list : ∀ items, v ≠ .list items) :
    (∀ type, compositeDecoded a type (decodeComposite a type v) = true) ∧
      ∀ field, fieldDecoded a field (decodeField a field v) = true := by
  have kept : ∀ type, compositeDecoded a type (decodeComposite a type v) = true := by
    intro type
    rw [decodeComposite_other hash, compositeDecoded_other hash]
  exact ⟨kept, fieldDecoded_decodeField kept fun items equal => absurd equal (list items)⟩

theorem decoded_parts (v : State S L) :
    (∀ type, compositeDecoded a type (decodeComposite a type v) = true) ∧
      ∀ field, fieldDecoded a field (decodeField a field v) = true := by
  induction v using State.induction with
  | list items ih =>
    have kept : ∀ type, compositeDecoded a type
        (decodeComposite a type (.list items : State S L)) = true := by
      intro type
      rw [decodeComposite_other (by intro entries equal; cases equal)]
      exact compositeDecoded_other (by intro entries equal; cases equal)
    refine ⟨kept, fieldDecoded_decodeField kept ?_⟩
    intro items' equal type i mem
    cases equal
    exact (ih i mem).1 type
  | hash entries ih =>
    have composite : ∀ type, compositeDecoded a type
        (decodeComposite a type (.hash entries)) = true := by
      intro type
      rw [decodeComposite_hash]
      cases found : compositeFields a type with
      | none =>
        rw [Option.elim_none, compositeDecoded_hash, found]
        rfl
      | some fields =>
        rw [Option.elim_some, compositeDecoded_hash, found]
        exact hashDecoded_decodeHash fun e mem => (ih e mem).2
    refine ⟨composite, fieldDecoded_decodeField composite ?_⟩
    intro items equal
    cases equal
  | nil => exact decoded_plain nofun nofun
  | scalar s => exact decoded_plain nofun nofun
  | leaf l => exact decoded_plain nofun nofun
  | value fields => exact decoded_plain nofun nofun

/-- Whatever decoding answers is decoded. -/
theorem decoded_decode (v : State S L) : decoded a (decode a v) = true := by
  cases v with
  | hash entries => exact hashDecoded_decodeHash fun e _ => (decoded_parts e.2).2
  | _ => rfl

end

/-! ### What the check passes is decoded -/

/-- No Hash in it holds a key twice or as a String beside the Symbol. -/
inductive Unmixed : State S L → Prop
  | nil : Unmixed .nil
  | scalar (s : S) : Unmixed (.scalar s)
  | leaf (l : L) : Unmixed (.leaf l)
  | value (fields : List (String × State S L)) : Unmixed (.value fields)
  | list {items : List (State S L)} (each : ∀ i ∈ items, Unmixed i) : Unmixed (.list items)
  | hash {entries : List (Key × State S L)}
      (apart : ∀ e ∈ entries, isSkipped entries e.1 = false)
      (once : (entries.map Prod.fst).Nodup) (each : ∀ e ∈ entries, Unmixed e.2) :
      Unmixed (.hash entries)

section

variable {a : Aggregate} {fields : Fields}

theorem respell_eq_self_iff {top : Bool} {e : Key × State S L}
    (parts : ∀ field, decodeField a field e.2 = e.2 ↔ fieldDecoded a field e.2 = true) :
    respell a fields top e = e ↔ EntryDecoded a fields top e := by
  obtain ⟨key, value⟩ := e
  cases declared : fields.get key.text with
  | some field =>
    rw [respell_declared declared]
    cases key with
    | symbol text =>
      constructor
      · intro same other found
        cases declared.symm.trans found
        exact (parts field).mp (Prod.mk.inj same).2
      · intro passes
        exact Prod.ext rfl ((parts field).mpr (passes field declared))
    | string text =>
      constructor
      · intro same
        cases (Prod.mk.inj same).1
      · rintro ⟨-, none⟩
        cases declared.symm.trans none
    | other text =>
      constructor
      · intro same
        cases (Prod.mk.inj same).1
      · rintro ⟨-, none⟩
        cases declared.symm.trans none
  | none =>
    rw [respell_undeclared declared]
    cases key with
    | symbol text =>
      constructor
      · intro _ field found
        cases declared.symm.trans found
      · intro _
        cases top with
        | true => rfl
        | false => rfl
    | string text =>
      cases top with
      | true =>
        constructor
        · intro same
          cases (Prod.mk.inj same).1
        · rintro ⟨none, -⟩
          cases none
      | false => exact ⟨fun _ => ⟨rfl, declared⟩, fun _ => rfl⟩
    | other text =>
      cases top with
      | true =>
        constructor
        · intro same
          cases (Prod.mk.inj same).1
        · rintro ⟨none, -⟩
          cases none
      | false => exact ⟨fun _ => ⟨rfl, declared⟩, fun _ => rfl⟩

theorem decodeHash_eq_self_iff {raw : List (Key × State S L)} {top : Bool}
    (apart : ∀ e ∈ raw, isSkipped raw e.1 = false) (once : (raw.map Prod.fst).Nodup)
    (parts : ∀ e ∈ raw, ∀ field,
      decodeField a field e.2 = e.2 ↔ fieldDecoded a field e.2 = true) :
    decodeHash a fields raw top = raw ↔ hashDecoded a fields raw top = true := by
  rw [decodeHash_unskipped apart, hashDecoded_iff]
  constructor
  · intro same e mem
    -- as many entries as before, so no two keys were respelled to one
    have all : ((Hash.empty : Hash Key (State S L)).setAll
        (raw.map (respell a fields top))).entries.length =
          (Hash.empty : Hash Key (State S L)).entries.length +
            (raw.map (respell a fields top)).length := by
      rw [same, List.length_map]
      exact (Nat.zero_add _).symm
    have distinct : ((raw.map (respell a fields top)).map Prod.fst).Nodup :=
      Hash.nodup_of_length_setAll all
    have kept : raw.map (respell a fields top) = raw := by
      rw [← Hash.entries_setAll distinct]
      exact same
    have fixed := List.map_inj_left.mp (kept.trans (List.map_id raw).symm) e mem
    exact (respell_eq_self_iff (parts e mem)).mp fixed
  · intro passes
    have kept : raw.map (respell a fields top) = raw :=
      map_eq_self fun e mem => (respell_eq_self_iff (parts e mem)).mpr (passes e mem)
    rw [kept, Hash.entries_setAll once]

theorem decodeField_eq_self_iff {v : State S L}
    (composite : ∀ type, decodeComposite a type v = v ↔ compositeDecoded a type v = true)
    (items : ∀ items, v = .list items → ∀ type, ∀ i ∈ items,
      (decodeComposite a type i = i ↔ compositeDecoded a type i = true))
    (field : Option Attribute) :
    decodeField a field v = v ↔ fieldDecoded a field v = true := by
  cases walk (a := a) field v with
  | kept decode check => exact ⟨fun _ => check, fun _ => decode⟩
  | items decode check =>
    rename_i attr listed
    rw [decode, check, listDecoded_iff]
    constructor
    · intro same i mem
      have kept := State.list.inj same
      have fixed := List.map_inj_left.mp (kept.trans (List.map_id listed).symm) i mem
      exact (items _ rfl _ i mem).mp fixed
    · intro passes
      exact congrArg State.list (map_eq_self fun i mem => (items _ rfl _ i mem).mpr (passes i mem))
  | composite decode check check' => rw [decode, check', composite]

theorem eq_self_plain {v : State S L} (hash : ∀ entries, v ≠ .hash entries)
    (list : ∀ items, v ≠ .list items) :
    (∀ type, decodeComposite a type v = v ↔ compositeDecoded a type v = true) ∧
      ∀ field, decodeField a field v = v ↔ fieldDecoded a field v = true := by
  have kept : ∀ type, decodeComposite a type v = v ↔ compositeDecoded a type v = true := by
    intro type
    exact ⟨fun _ => compositeDecoded_other hash, fun _ => decodeComposite_other hash⟩
  exact ⟨kept, decodeField_eq_self_iff kept fun items equal => absurd equal (list items)⟩

theorem eq_self_parts (v : State S L) (unmixed : Unmixed v) :
    (∀ type, decodeComposite a type v = v ↔ compositeDecoded a type v = true) ∧
      ∀ field, decodeField a field v = v ↔ fieldDecoded a field v = true := by
  induction v using State.induction with
  | list items ih =>
    have kept : ∀ type, decodeComposite a type (.list items) = .list items ↔
        compositeDecoded a type (.list items) = true := by
      intro type
      have other : ∀ entries, State.list items ≠ .hash entries := nofun
      exact ⟨fun _ => compositeDecoded_other other, fun _ => decodeComposite_other other⟩
    refine ⟨kept, decodeField_eq_self_iff kept ?_⟩
    intro items' equal type i mem
    cases equal
    cases unmixed with
    | list each => exact (ih i mem (each i mem)).1 type
  | hash entries ih =>
    have composite : ∀ type, decodeComposite a type (.hash entries) = .hash entries ↔
        compositeDecoded a type (.hash entries) = true := by
      intro type
      rw [decodeComposite_hash, compositeDecoded_hash]
      cases compositeFields a type with
      | none => exact ⟨fun _ => rfl, fun _ => rfl⟩
      | some fields =>
        cases unmixed with
        | hash apart once each =>
          rw [Option.elim_some, Option.elim_some, State.hash.injEq]
          exact decodeHash_eq_self_iff apart once fun e mem => (ih e mem (each e mem)).2
    refine ⟨composite, decodeField_eq_self_iff composite ?_⟩
    intro items equal
    cases equal
  | nil => exact eq_self_plain nofun nofun
  | scalar s => exact eq_self_plain nofun nofun
  | leaf l => exact eq_self_plain nofun nofun
  | value fields => exact eq_self_plain nofun nofun

/-- Decoding leaves a state as it is exactly where the check passes it. -/
theorem decode_eq_self_iff {v : State S L} (unmixed : Unmixed v) :
    decode a v = v ↔ decoded a v = true := by
  cases unmixed with
  | hash apart once each =>
    rw [decode, decoded, State.hash.injEq]
    exact decodeHash_eq_self_iff apart once fun e mem => (eq_self_parts e.2 (each e mem)).2
  | _ => exact ⟨fun _ => rfl, fun _ => rfl⟩

end

/-- Every key of the Hash itself is a String. -/
def StringKeyed (entries : List (Key × State S L)) : Prop := ∀ e ∈ entries, ∃ t, e.1 = .string t

/-- At the top no String is left, and none passes. -/
theorem decode_stringKeyed (a : Aggregate) {entries : List (Key × State S L)}
    (strings : StringKeyed entries) :
    decode a (.hash entries) = .hash entries ↔ decoded a (.hash entries) = true := by
  rw [decode, decoded, State.hash.injEq, hashDecoded_iff]
  cases entries with
  | nil =>
    rw [decodeHash_eq]
    exact ⟨fun _ e mem => absurd mem List.not_mem_nil, fun _ => rfl⟩
  | cons e entries =>
    obtain ⟨t, key⟩ := strings e List.mem_cons_self
    constructor
    · intro same
      have there : e ∈ decodeHash a (declaredTopLevel a) (e :: entries) true := by
        rw [same]
        exact List.mem_cons_self
      rw [decodeHash_eq] at there
      cases Hash.mem_entries_setAll there with
      | inl none => cases none
      | inr there =>
        obtain ⟨d, -, here⟩ := List.mem_flatMap.mp there
        split at here
        · cases here
        · have respelt := congrArg Prod.fst (List.mem_singleton.mp here)
          rw [key] at respelt
          cases declared : (declaredTopLevel a).get d.1.text with
          | some field =>
            rw [respell_declared declared] at respelt
            cases respelt
          | none =>
            rw [respell_undeclared declared] at respelt
            cases respelt
    · intro passes
      have here := passes e List.mem_cons_self
      unfold EntryDecoded at here
      rw [key] at here
      cases here.1

/-- A round trip through the store answers a decoded state, which a second one leaves as it is and
which is stored as the first was; and decoding leaves what is stored as it is exactly where the
check passes it, and so whatever holds no key in two spellings. -/
theorem copy_faithful (a : Aggregate) (roundTrip : L → { v : State S L // Ready v })
    (s : State S L) :
    decoded a (copy a roundTrip s) = true ∧
    copy a roundTrip (copy a roundTrip s) = copy a roundTrip s ∧
    encodeValue roundTrip (copy a roundTrip s) = encodeValue roundTrip s ∧
    (∀ entries : List (Key × State S L), StringKeyed entries →
      (decode a (.hash entries) = .hash entries ↔ decoded a (.hash entries) = true)) ∧
    ∀ v : State S L, Unmixed v → (decode a v = v ↔ decoded a v = true) := by
  have stored : encodeValue roundTrip (copy a roundTrip s) = encodeValue roundTrip s :=
    encode_decode roundTrip (ready_encodeValue s)
  refine ⟨decoded_decode _, ?_, stored, fun _ => decode_stringKeyed a, fun _ => decode_eq_self_iff⟩
  exact congrArg (decode a) stored

/-- A menu with a price in cents, in whole numbers only. -/
def menu : Aggregate where
  attributes := [⟨"price", "Price", false, false, false⟩]
  lifecycleField := none
  projectedFields := []
  entities := []
  valueObjects := [⟨"Price", [⟨"cents", "Integer", false, false, false⟩]⟩]
  owner := []

/-- What is stored of a price, with a member the menu does not declare. -/
def storedPrice : List (Key × State ℕ Empty) :=
  [(.string "price", .hash [(.string "cents", .scalar 5), (.string "legacy", .scalar 1)])]

theorem price_respelled : StringKeyed storedPrice ∧
    (decode menu (.hash storedPrice) = .hash storedPrice ↔
      decoded menu (.hash storedPrice) = true) := by
  have strings : StringKeyed storedPrice := by
    intro e mem
    cases List.mem_singleton.mp mem
    exact ⟨"price", rfl⟩
  exact ⟨strings, (copy_faithful menu Empty.elim (.hash storedPrice)).2.2.2.1 _ strings⟩

end Hecks.StateCodec
