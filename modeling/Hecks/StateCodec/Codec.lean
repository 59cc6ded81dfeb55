import Hecks.Lib.Hash

/-! The canonical spelling of an aggregate's state on either side of the store. -/
namespace Hecks.StateCodec

/-- A key of a Hash; one that is neither a Symbol nor a String is known by its text. -/
inductive Key where
  | symbol (text : String)
  | string (text : String)
  | other (text : String)
deriving DecidableEq

/-- `to_s`. -/
def Key.text : Key → String
  | symbol text => text
  | string text => text
  | other text => text

/-- A value of a state, over the scalars JSON has itself and the leaves it has not, such as a
Symbol or a Time. A Hash has its entries in order, a `Runtime::Value` its fields, by Symbols. -/
inductive State (S L : Type) where
  | nil
  | scalar (s : S)
  | leaf (l : L)
  | list (items : List (State S L))
  | hash (entries : List (Key × State S L))
  | value (fields : List (String × State S L))

variable {S L : Type}

def State.isNil : State S L → Bool
  | .nil => true
  | _ => false

theorem sizeOf_entry_lt {κ : Type} [SizeOf κ] {entries : List (κ × State S L)}
    {e : κ × State S L} (mem : e ∈ entries) : sizeOf e.2 < sizeOf entries := by
  have inner := List.sizeOf_lt_of_mem mem
  have part : sizeOf e = 1 + sizeOf e.1 + sizeOf e.2 := rfl
  omega

/-- What holds of every value whose parts it holds of holds of every value. -/
theorem State.induction {P : State S L → Prop} (nil : P .nil) (scalar : ∀ s, P (.scalar s))
    (leaf : ∀ l, P (.leaf l)) (list : ∀ items, (∀ i ∈ items, P i) → P (.list items))
    (hash : ∀ entries, (∀ e ∈ entries, P e.2) → P (.hash entries))
    (value : ∀ fields, (∀ f ∈ fields, P f.2) → P (.value fields)) (v : State S L) : P v := by
  induction size : sizeOf v using Nat.strong_induction_on generalizing v with
  | _ n ih =>
    cases v with
    | nil => exact nil
    | scalar s => exact scalar s
    | leaf l => exact leaf l
    | list items =>
      refine list items fun i mem => ih (sizeOf i) ?_ i rfl
      have inner := List.sizeOf_lt_of_mem mem
      rw [← size, State.list.sizeOf_spec]
      omega
    | hash entries =>
      refine hash entries fun e mem => ih (sizeOf e.2) ?_ e.2 rfl
      have inner := sizeOf_entry_lt mem
      rw [← size, State.hash.sizeOf_spec]
      omega
    | value fields =>
      refine value fields fun f mem => ih (sizeOf f.2) ?_ f.2 rfl
      have inner := sizeOf_entry_lt mem
      rw [← size, State.value.sizeOf_spec]
      omega

/-- JSON: scalars, and Arrays and Hashes of JSON whose keys are Strings, each once. -/
inductive Ready : State S L → Prop
  | nil : Ready .nil
  | scalar (s : S) : Ready (.scalar s)
  | list {items : List (State S L)} (each : ∀ i ∈ items, Ready i) : Ready (.list items)
  | hash {entries : List (Key × State S L)} (strings : ∀ e ∈ entries, ∃ t, e.1 = .string t)
      (once : (entries.map Prod.fst).Nodup) (each : ∀ e ∈ entries, Ready e.2) :
      Ready (.hash entries)

/-! ### Encoding -/

/-- `Value.materialize`: a nested `Runtime::Value` is replaced by its fields. -/
def materialize : State S L → State S L
  | .value fields => .hash (fields.attach.map fun f => (.symbol f.1.1, materialize f.1.2))
  | .list items => .list (items.attach.map fun i => materialize i.1)
  | .hash entries => .hash (entries.attach.map fun e => (e.1.1, materialize e.1.2))
  | other => other
termination_by v => sizeOf v
decreasing_by
  · have inner := sizeOf_entry_lt f.2
    rw [State.value.sizeOf_spec]
    omega
  · have inner := List.sizeOf_lt_of_mem i.2
    rw [State.list.sizeOf_spec]
    omega
  · have inner := sizeOf_entry_lt e.2
    rw [State.hash.sizeOf_spec]
    omega

/-- `Value#to_h`. -/
def toH (fields : List (String × State S L)) : State S L :=
  .hash (fields.map fun f => (.symbol f.1, materialize f.2))

section

-- what `JSON.generate`, then `JSON.parse`, make of a leaf
variable (roundTrip : L → { v : State S L // Ready v })

/-- A `Runtime::Value` is encoded as its `to_h`, which `encodeValue_value` shows to be this. -/
def encodeValue : State S L → State S L
  | .value fields => .hash (Hash.setAll .empty (fields.attach.map fun f =>
      (Key.string f.1.1, encodeValue f.1.2))).entries
  | .hash entries => .hash (Hash.setAll .empty (entries.attach.map fun e =>
      (Key.string e.1.1.text, encodeValue e.1.2))).entries
  | .list items => .list (items.attach.map fun i => encodeValue i.1)
  | .nil => .nil
  | .scalar s => .scalar s
  | .leaf l => (roundTrip l).1
termination_by v => sizeOf v
decreasing_by
  · have inner := sizeOf_entry_lt f.2
    rw [State.value.sizeOf_spec]
    omega
  · have inner := sizeOf_entry_lt e.2
    rw [State.hash.sizeOf_spec]
    omega
  · have inner := List.sizeOf_lt_of_mem i.2
    rw [State.list.sizeOf_spec]
    omega

end

/-! ### Declarations -/

structure Attribute where
  name : String
  type : String
  list : Bool
  optional : Bool
  reference : Bool
deriving DecidableEq

structure ValueObject where
  name : String
  attributes : List Attribute

inductive Entity where
  | declared (name : String) (attributes : List Attribute) (lifecycleField : Option String)
      (entities : List Entity)

/-- An aggregate, with the value objects of each aggregate of its bluebook. -/
structure Aggregate where
  attributes : List Attribute
  lifecycleField : Option String
  projectedFields : List String
  entities : List Entity
  valueObjects : List ValueObject
  owner : List (List ValueObject)

/-- The fields declared at a level; `none` marks one that no attribute declares. -/
abbrev Fields := Hash String (Option Attribute)

/-- The attributes by name, and the lifecycle field that no attribute declares. -/
def fieldsOf (attributes : List Attribute) (lifecycleField : Option String) : Fields :=
  let fields : Fields := Hash.setAll .empty (attributes.map fun a => (a.name, some a))
  match lifecycleField with
  | none => fields
  | some field => if (fields.get field).isSome then fields else fields.set field none

def entityFields : Entity → Fields
  | .declared _ attributes lifecycleField _ => fieldsOf attributes lifecycleField

def declaredTopLevel (a : Aggregate) : Fields :=
  a.projectedFields.foldl (fun fields field =>
    if (fields.get field).isSome then fields else fields.set field none)
    (fieldsOf a.attributes a.lifecycleField)

/-- The first entity of that name, each looked through before the next. -/
def findEntity (name : String) : List Entity → Option Entity
  | [] => none
  | .declared n attributes lifecycleField inner :: rest =>
      if n = name then some (.declared n attributes lifecycleField inner)
      else (findEntity name inner).or (findEntity name rest)

/-- `value_object`: the declarations are keyed by name. -/
def valueObject (valueObjects : List ValueObject) (type : String) : Option ValueObject :=
  (Hash.setAll .empty (valueObjects.map fun v => (v.name, v))).get type

/-- The value object of that name, where the aggregates that declare one agree in its shape. -/
def agreedValueObject (owner : List (List ValueObject)) (type : String) : Option ValueObject :=
  let shape := fun v : ValueObject =>
    v.attributes.map fun a => (a.name, a.type, a.list, a.optional)
  match owner.filterMap fun valueObjects => valueObject valueObjects type with
  | [] => none
  | first :: others => if others.all fun v => shape v = shape first then some first else none

/-- The aggregate's own declaration first, then what its bluebook agrees on. -/
def valueObjectFor (a : Aggregate) (type : String) : Option ValueObject :=
  (valueObject a.valueObjects type).or (agreedValueObject a.owner type)

/-- The fields of the entity or the unambiguous value object of that name. -/
def compositeFields (a : Aggregate) (type : String) : Option Fields :=
  match findEntity type a.entities with
  | some entity => some (entityFields entity)
  | none => (valueObjectFor a type).map fun v =>
      Hash.setAll .empty (v.attributes.map fun field => (field.name, some field))

/-! ### Decoding -/

section

variable (a : Aggregate)

/-- A string key is skipped where the symbol of that name is a key too. -/
def isSkipped (raw : List (Key × State S L)) (key : Key) : Bool :=
  match key with
  | .string text => raw.any fun e => e.1 = .symbol text
  | _ => false

mutual

def decodeHash (fields : Fields) (raw : List (Key × State S L)) (symbolizeUndeclared : Bool) :
    List (Key × State S L) :=
  (Hash.setAll .empty (raw.attach.flatMap fun e =>
    if isSkipped raw e.1.1 then []
    else
      match fields.get e.1.1.text with
      | some field => [(.symbol e.1.1.text, decodeField field e.1.2)]
      | none => [(if symbolizeUndeclared then .symbol e.1.1.text else e.1.1, e.1.2)])).entries
termination_by (sizeOf raw, 0)
decreasing_by exact Prod.Lex.left _ _ (sizeOf_entry_lt e.2)

def decodeField (field : Option Attribute) (value : State S L) : State S L :=
  match field with
  | none => value
  | some attr =>
      if value.isNil || attr.reference then value
      else if attr.list then
        match value with
        | .list items => .list (items.attach.map fun i => decodeComposite attr.type i.1)
        | other => other
      else decodeComposite attr.type value
termination_by (sizeOf value, 2)
decreasing_by
  · apply Prod.Lex.left
    have inner := List.sizeOf_lt_of_mem i.2
    rw [State.list.sizeOf_spec]
    omega
  · exact Prod.Lex.right _ (by decide)

def decodeComposite (type : String) (value : State S L) : State S L :=
  match value with
  | .hash entries =>
      match findEntity type a.entities with
      | some entity => .hash (decodeHash (entityFields entity) entries false)
      | none =>
          match valueObjectFor a type with
          | none => .hash entries
          | some v => .hash (decodeHash
              (Hash.setAll .empty (v.attributes.map fun field => (field.name, some field)))
              entries false)
  | other => other
termination_by (sizeOf value, 1)
decreasing_by
  all_goals
    apply Prod.Lex.left
    rw [State.hash.sizeOf_spec]
    omega

end

/-- What is not a Hash is answered as given. -/
def decode (raw : State S L) : State S L :=
  match raw with
  | .hash entries => .hash (decodeHash a (declaredTopLevel a) entries true)
  | other => other

/-! ### The check -/

mutual

def hashDecoded (fields : Fields) (hash : List (Key × State S L)) (top : Bool) : Bool :=
  hash.attach.all fun e =>
    match e.1.1 with
    | .symbol text =>
        match fields.get text with
        | none => true
        | some field => fieldDecoded field e.1.2
    | key => !top && (fields.get key.text).isNone
termination_by (sizeOf hash, 0)
decreasing_by exact Prod.Lex.left _ _ (sizeOf_entry_lt e.2)

def fieldDecoded (field : Option Attribute) (value : State S L) : Bool :=
  match field with
  | none => true
  | some attr =>
      if value.isNil || attr.reference then true
      else if attr.list then
        match value with
        | .list items => listDecoded attr.type items
        | _ => true
      else compositeDecoded attr.type value
termination_by (sizeOf value, 2)
decreasing_by
  · apply Prod.Lex.left
    rw [State.list.sizeOf_spec]
    omega
  · exact Prod.Lex.right _ (by decide)

/-- Each element that is a Hash; the type is resolved once. -/
def listDecoded (type : String) (items : List (State S L)) : Bool :=
  items.attach.all fun i =>
    match same : i.1 with
    | .hash entries =>
        match compositeFields a type with
        | none => true
        | some fields => hashDecoded fields entries false
    | _ => true
termination_by (sizeOf items, 0)
decreasing_by
  apply Prod.Lex.left
  have inner := List.sizeOf_lt_of_mem i.2
  rw [same, State.hash.sizeOf_spec] at inner
  omega

def compositeDecoded (type : String) (value : State S L) : Bool :=
  match value with
  | .hash entries =>
      match compositeFields a type with
      | none => true
      | some fields => hashDecoded fields entries false
  | _ => true
termination_by (sizeOf value, 1)
decreasing_by
  apply Prod.Lex.left
  rw [State.hash.sizeOf_spec]
  omega

end

/-- Whether a state already has the shape `decode` produces. -/
def decoded (state : State S L) : Bool :=
  match state with
  | .hash entries => hashDecoded a (declaredTopLevel a) entries true
  | _ => true

/-- What a durable adapter would read back. -/
def copy (roundTrip : L → { v : State S L // Ready v }) (state : State S L) : State S L :=
  decode a (encodeValue roundTrip state)

end

end Hecks.StateCodec
