import Hecks.Json.Writer

/-! The JSON values the host reads. -/
namespace Hecks.Host

/-- `serde_json::Value` with the host's features: a number is its text, and an object keeps its
keys in the order they came, each one once. -/
inductive Serde where
  | null
  | bool (b : Bool)
  | number (text : String)
  | string (s : String)
  | array (items : List Serde)
  | object (fields : List (String × Serde))
deriving Inhabited

namespace Serde

def get (j : Serde) (key : String) : Option Serde :=
  match j with
  | object fields => (fields.find? fun f => f.1 = key).map (·.2)
  | _ => none

def asStr : Serde → Option String
  | string s => some s
  | _ => none

def asBool : Serde → Option Bool
  | bool b => some b
  | _ => none

def asArray : Serde → Option (List Serde)
  | array items => some items
  | _ => none

def asObject : Serde → Option (List (String × Serde))
  | object fields => some fields
  | _ => none

def isNull : Serde → Bool
  | null => true
  | _ => false

def asI64 : Serde → Option Int64
  | number text => Text.parseI64 text
  | _ => none

/-- Only a finite number is an `f64`. -/
def asF64 : Serde → Option Float.Model
  | number text => (Binary64.parse text).filter (·.isFinite)
  | _ => none

/-- The text under a key, empty where there is none. -/
def textAt (j : Serde) (key : String) : String := ((j.get key).bind asStr).getD ""

def flagAt (j : Serde) (key : String) : Bool := ((j.get key).bind asBool).getD false

def itemsAt (j : Serde) (key : String) : List Serde := ((j.get key).bind asArray).getD []

/-- An entry of a list goes by this name. -/
def isNamed (j : Serde) (name : String) : Bool := (j.get "name").bind asStr = some name

/-- A later field of the same name takes the place of the earlier one. -/
def insert (key : String) (value : Serde) : List (String × Serde) → List (String × Serde)
  | [] => [(key, value)]
  | f :: fields => if f.1 = key then (key, value) :: fields else f :: insert key value fields

mutual

/-- A document of the kernel as `serde_json` reads its text. -/
def ofJson : Json → Serde
  | .object fields => object ((ofFields fields).foldl (fun map f => insert f.1 f.2 map) [])
  | .array items => array (ofItems items)
  | .str s => string s
  | .num n raw => number (String.ofList (Json.write (.num n raw)))
  | .float n => number (String.ofList (Json.writeFloat n))
  | .bool b => bool b
  | .null => null

def ofFields : List (String × Json) → List (String × Serde)
  | [] => []
  | (key, value) :: fields => (key, ofJson value) :: ofFields fields

def ofItems : List Json → List Serde
  | [] => []
  | item :: items => ofJson item :: ofItems items

end

end Serde

end Hecks.Host
