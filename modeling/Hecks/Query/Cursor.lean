import Hecks.Query.Comparators

/-! The order a query declares, and the position a cursor query pages by: one opaque token
naming the last row's order value and identity, and the rule for which rows follow it. -/
namespace Hecks.Query

inductive NullsMode where
  | native
  | first
  | last
deriving DecidableEq

structure OrderBy where
  field : String
  descending : Bool
  nulls : NullsMode

/-- A declared limit or offset: a literal count, or an argument of the call. -/
inductive Limit where
  | literal (n : Int64)
  | arg (name : String)

abbrev Offset := Limit

/-- `as_i64`. -/
def asI64 : Json → Option Int64
  | .num n raw => Json.exactI64 n raw
  | _ => none

/-- A missing or non-numeric argument reads as 0; negatives floor to 0. -/
def resolveLimit (limit : Limit) (args : Json) : Nat :=
  let raw := match limit with
    | .literal n => n
    | .arg name => ((args.get name).bind asI64).getD 0
  raw.toInt.toNat

/-! ### The declared order -/

/-- Reduced as a condition's held value is; a missing field reads as null. -/
def orderKey (record : Json) (field : String) : Json :=
  comparable ((record.dig field).getD .null)

/-- `partial_cmp`, equal where there is no answer. -/
def compareFloats (x y : Float.Model) : Ordering := (x.compare y).getD .eq

def compareComparable : Json → Json → Ordering
  | .num x _, .num y _ => compareFloats x y
  | .num x _, .float y => compareFloats x y
  | .float x, .num y _ => compareFloats x y
  | .float x, .float y => compareFloats x y
  | .str x, .str y => compare x y
  | _, _ => .eq

def isNull (key : Json) : Bool := Json.eq key .null

/-- The stable sort by the order's value. -/
def sortByKey (field : String) (rows : Rows) : Rows :=
  rows.insertionSort fun a b =>
    compareComparable (orderKey a.2 field) (orderKey b.2 field) ≠ .gt

def nullsFirst (order : OrderBy) : Bool :=
  match order.nulls with
  | .first => true
  | .last => false
  | .native => !order.descending

def applyDeclaredOrder (rows : Rows) (order : OrderBy) : Rows :=
  let nullRows := rows.filter fun r => isNull (orderKey r.2 order.field)
  let valuedRows :=
    sortByKey order.field (rows.filter fun r => !isNull (orderKey r.2 order.field))
  let nullRows := if order.descending then nullRows.reverse else nullRows
  let valuedRows := if order.descending then valuedRows.reverse else valuedRows
  match order.nulls with
  | .first => nullRows ++ valuedRows
  | .last => valuedRows ++ nullRows
  | .native => if !order.descending then nullRows ++ valuedRows else valuedRows ++ nullRows

/-- Sorts by id, layers the declared order, then skips `offset` and caps at `limit`. -/
def applyOrdering (rows : Rows) (orderBy : Option OrderBy) (offset : Option Offset)
    (limit : Option Limit) (args : Json) : Rows :=
  let rows := sortById rows
  let rows := match orderBy with
    | some order => applyDeclaredOrder rows order
    | none => rows
  let rows := match offset with
    | some offset => rows.drop (resolveLimit offset args)
    | none => rows
  match limit with
  | some limit => rows.take (resolveLimit limit args)
  | none => rows

/-! ### The token -/

def alphabet : List Char :=
  "ABCDEFGHIJKLMNOPQRSTUVWXYZabcdefghijklmnopqrstuvwxyz0123456789-_".toList

/-- The `i`-th character of the alphabet. -/
def sextetChar (i : Nat) : Char := alphabet.getD i 'A'

/-- A sextet's place in a group of four, a byte's in a group of three. -/
def sextet (n i : Nat) : Nat := (n >>> (18 - 6 * i)) &&& 63

def base64Group (bytes : List UInt8) : List Char :=
  let n := bytes.zipIdx.foldl (fun acc b => acc ||| (b.1.toNat <<< (16 - 8 * b.2))) 0
  (List.range (bytes.length + 1)).map fun i => sextetChar (sextet n i)

def base64Url : List UInt8 → List Char
  | [] => []
  | [a] => base64Group [a]
  | [a, b] => base64Group [a, b]
  | a :: b :: c :: rest => base64Group [a, b, c] ++ base64Url rest

def unbase64Group (sextets : List Nat) : Option (List UInt8) :=
  if sextets.length = 1 then none
  else
    let n := sextets.zipIdx.foldl (fun acc s => acc ||| (s.1 <<< (18 - 6 * s.2))) 0
    some ((List.range (sextets.length - 1)).map fun i => UInt8.ofNat (n >>> (16 - 8 * i)))

def unbase64Groups : List Nat → Option (List UInt8)
  | [] => some []
  | [a] => unbase64Group [a]
  | [a, b] => unbase64Group [a, b]
  | [a, b, c] => unbase64Group [a, b, c]
  | a :: b :: c :: d :: rest =>
      (unbase64Group [a, b, c, d]).bind fun bytes =>
        (unbase64Groups rest).map (bytes ++ ·)

/-- No byte of a character outside ASCII is in the alphabet, so characters stand for bytes. -/
def unbase64Url (text : List Char) : Option (List UInt8) :=
  ((text.rdropWhile (· = '=')).mapM fun c => alphabet.findIdx? (· = c)).bind unbase64Groups

/-- The URL-safe base64 of the JSON array of the order value and the id. -/
def encode (value : Json) (id : String) : String :=
  let body := (Json.array [value, .str id]).toJsonString
  String.ofList (base64Url body.toUTF8.data.toList)

/-- The token of a record, null where no order is declared. -/
def tokenFor (id : String) (record : Json) (orderBy : Option OrderBy) : String :=
  let value := match orderBy with
    | none => .null
    | some order => orderKey record order.field
  encode value id

section

variable (escapes : Char → Bool)

def decode (token : String) : Except Refusal (Json × String) :=
  let invalid : Except Refusal (Json × String) := .error (.typeMismatch
    ("after " ++ Text.debugStr escapes token ++ " is not a cursor this query handed out"))
  match unbase64Url token.toList with
  | none => invalid
  | some bytes =>
      match String.fromUTF8? bytes.toByteArray with
      | none => invalid
      | some text =>
          match Json.parse escapes text with
          | .ok (.array [value, .str id]) => .ok (value, id)
          | _ => invalid

/-- Where a row sits against the position in query order: the order value in its direction,
nulls where `nulls` puts them, identity breaking ties in the same direction. -/
def sequence (key : Json) (id : String) (held : Json) (heldId : String) (order : OrderBy) :
    Ordering :=
  let keyNull := isNull key
  let heldNull := isNull held
  if keyNull ≠ heldNull then if keyNull = nullsFirst order then .lt else .gt
  else
    let byValue := if keyNull then .eq else compareComparable key held
    let forward := byValue.then (compare id heldId)
    if order.descending then forward.swap else forward

def follows (id : String) (record : Json) (orderBy : Option OrderBy) (held : Json)
    (heldId : String) : Bool :=
  match orderBy with
  | none => decide (heldId < id)
  | some order => sequence (orderKey record order.field) id held heldId order = .gt

/-- The rows that follow the token's position, in the order given. -/
def rowsAfter (rows : Rows) (orderBy : Option OrderBy) (after : Option String) :
    Except Refusal Rows :=
  match after with
  | none => .ok rows
  | some token => do
      let (held, heldId) ← decode escapes token
      return rows.filter fun r => follows r.1 r.2 orderBy held heldId

end

/-- Rows fetched one past the page, split into the page and the token of the next one. -/
def splitPage (rows : Rows) (orderBy : Option OrderBy) (size : Nat) : Rows × Option String :=
  if rows.length ≤ size ∨ size = 0 then (rows.take size, none)
  else (rows.take size, ((rows.take size).getLast?).map fun r => tokenFor r.1 r.2 orderBy)

end Hecks.Query
