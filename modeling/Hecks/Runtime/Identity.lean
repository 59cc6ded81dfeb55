import Hecks.Lib.Joined
import Hecks.Runtime.Reads

/-! The identity of a record, from the facts a command carries. -/
namespace Hecks.Runtime.Identity

/-- What a hash has for a key. -/
inductive Key where
  | symbol (name : String)
  | text (name : String)
  | other
  deriving DecidableEq

/-- A value as an identity reads it: `plain` is a number or the like, by what `to_s` shows, and
`object` a value object, by the fields of its `to_h`. -/
inductive Held where
  | nil
  | bool (b : Bool)
  | text (s : String)
  | symbol (name : String)
  | plain (shown : String)
  | list (items : List Held)
  | hash (entries : List (Key × Held))
  | object (fields : List (Key × Held))

abbrev Args := Key → Option Held

namespace Held

/-- `hash.key?(sym) ? hash[sym] : hash[key]`. -/
def hashLookup (entries : List (Key × Held)) (name : String) : Held :=
  ((entries.lookup (.symbol name)).or (entries.lookup (.text name))).getD .nil

/-- One step of a path, into a hash only. -/
def dig (held : Held) (field : String) : Held :=
  match held with
  | hash entries => hashLookup entries field
  | _ => nil

def toKey : Held → Key
  | symbol name => .symbol name
  | text s => .text s
  | _ => .other

/-- An array is a hash where it holds pairs only; of two pairs with one key the later stays. -/
def pairs : List Held → List (Key × Held) → Option (List (Key × Held))
  | [], entries => some entries
  | list [key, value] :: items, entries => pairs items ((key.toKey, value) :: entries)
  | _, _ => none

/-- `to_h`, where the value responds to it. -/
def toH : Held → Option (Except Unit (List (Key × Held)))
  | nil => some (.ok [])
  | list items => some ((pairs items []).elim (.error ()) .ok)
  | hash entries | object entries => some (.ok entries)
  | bool _ | text _ | symbol _ | plain _ => none

/-- `inspect` shows what has no text of its own. -/
def toS (inspect : Held → String) : Held → String
  | nil => ""
  | bool b => toString b
  | text s | symbol s | plain s => s
  | held => inspect held

/-- `nil?`, or empty where the value can be. -/
def blank : Held → Bool
  | nil => true
  | text s | symbol s => s.isEmpty
  | list items => items.isEmpty
  | hash entries => entries.isEmpty
  | bool _ | plain _ | object _ => false

def truthy : Held → Bool
  | nil | bool false => false
  | _ => true

mutual

/-- What `join` makes of an element: an array is joined in its turn. -/
def joinText (inspect : Held → String) (sep : String) : Held → String
  | list items => sep.intercalate (joinTexts inspect sep items)
  | held => held.toS inspect

def joinTexts (inspect : Held → String) (sep : String) : List Held → List String
  | [] => []
  | held :: rest => joinText inspect sep held :: joinTexts inspect sep rest

end

end Held

def identityJoin : String := ":"

/-- An aggregate or an entity. `unwrapped` is a bare head's value once it is coerced for the
attribute and taken out of its value object. -/
structure Construct (ε : Type) where
  identityPaths : List Path
  attributes : List String
  unwrapped : String → Held → Except ε Held
  inspect : Held → String
  notAHash : ε

namespace Construct

variable {ε : Type} (c : Construct ε)

def identityHeads : List String := (c.identityPaths.map Path.head).dedup

/-- `Naming.identity`. -/
def identity (parts : List Held) : String :=
  identityJoin.intercalate (Held.joinTexts c.inspect identityJoin parts)

/-- The scalar a dotted path names inside the held value object or its hash. -/
def dottedScalar (held : Held) (rest : List String) : Except ε Held :=
  match held.toH with
  | none => .ok (.text (held.toS c.inspect))
  | some (.error _) => .error c.notAHash
  | some (.ok entries) =>
      match rest.foldl Held.dig (.hash entries) with
      | .nil => .ok .nil
      | dug => .ok (.text (dug.toS c.inspect))

/-- A bare head's value, coerced only when it is an attribute the identity names. -/
def bareHead (head : String) (raw : Held) : Except ε Held :=
  if head ∈ c.identityHeads ∧ head ∈ c.attributes then
    (c.unwrapped head raw).map fun value => .text (value.toS c.inspect)
  else .ok raw

/-- `Identity.from`: one path against the arguments. -/
def identityFrom (args : Args) (key : Path) : Except ε Held :=
  match args (.symbol key.head) with
  | none => .ok .nil
  | some held =>
      if key.rest ≠ [] then c.dottedScalar held key.rest else c.bareHead key.head held

def identityParts (args : Args) : Except ε (List Held) := c.identityPaths.mapM (c.identityFrom args)

/-- `Identity.of`: every declared part joined in order, or nothing where a part is blank. -/
def identityOf (args : Args) : Except ε (Option String) :=
  if c.identityPaths = [] then .ok none
  else (c.identityParts args).map fun parts =>
    if parts.any Held.blank then none else some (c.identity parts)

def idPath : Path := ⟨"id", []⟩

/-- The first of these that is there: the identity the facts make up, the `id`, the value under
the reference key. -/
def namedBy (args : Args) (referenceKey : Option Path) : Except ε Held := do
  match ← c.identityOf args with
  | some id => pure (.text id)
  | none =>
      let id ← c.identityFrom args idPath
      if id.truthy then pure id
      else
        match referenceKey with
        | none => pure .nil
        | some key => c.identityFrom args key

/-- `Identity.best_effort`: what is raised on the way answers nothing. -/
def bestEffort (args : Args) (route : Option String) (referenceKey : Option Path) : Held :=
  match route with
  | some id => .text id
  | none => (c.namedBy args referenceKey).toOption.getD .nil

/-- The parts as they are joined. -/
def partTexts (parts : List Held) : List (List Char) :=
  (Held.joinTexts c.inspect identityJoin parts).map String.toList

/-- The parts of the one, cut at every colon, are those of the other, with a colon of one part in
another part. -/
def Regrouped (parts parts' : List Held) : Prop :=
  Joined.Regrouped ':' (c.partTexts parts) (c.partTexts parts')

instance (parts parts' : List Held) : Decidable (c.Regrouped parts parts') :=
  inferInstanceAs (Decidable (Joined.Regrouped _ _ _))

theorem identity_toList (parts : List Held) :
    (c.identity parts).toList = [':'].intercalate (c.partTexts parts) := by
  rw [identity, String.toList_intercalate]
  rfl

theorem partTexts_ne_nil {parts : List Held} (ne : parts ≠ []) : c.partTexts parts ≠ [] := by
  cases parts with
  | nil => exact absurd rfl ne
  | cons part parts => exact List.cons_ne_nil _ _

theorem identity_ne_iff {parts parts' : List Held} (ne : parts ≠ []) (ne' : parts' ≠ []) :
    (c.partTexts parts ≠ c.partTexts parts' → c.identity parts ≠ c.identity parts') ↔
      ¬ c.Regrouped parts parts' := by
  rw [Regrouped, ← Joined.ne_iff_not_regrouped (c.partTexts_ne_nil ne) (c.partTexts_ne_nil ne'),
    ← identity_toList, ← identity_toList, Ne, Ne, Ne, String.toList_inj]

end Construct

end Hecks.Runtime.Identity
