import Hecks.Era.Rules

/-! The expression a derive computes a field from: its reading over a record, the text
expression it is compiled to, and that the two have the same value. -/
namespace Hecks.Era

open Hecks.Host (Serde)

/-! ### The evaluator -/

namespace Evaluator

/-- Reads a dotted path out of a record. -/
def read (state : State) : List String → Option Serde
  | [] => none
  | key :: keys => keys.foldl (fun held key => held.bind (·.get key)) (state key)

/-- Only text counts as a value. -/
def reference (path : FieldName) (state : State) : Option String :=
  (read state path.split).bind Serde.asStr

def downcase (s : String) : String := String.ofList (s.toList.map Char.toLower)

def upcase (s : String) : String := String.ofList (s.toList.map Char.toUpper)

mutual

def call : Tree → State → Option String
  | .lit text, _ => some text
  | .null, _ => none
  | .ref path, state => reference path state
  | .lower argument, state => (call argument state).map downcase
  | .upper argument, state => (call argument state).map upcase
  | .concat arguments, state => (callAll arguments state).map String.join
  | .replace target find put, state => (call target state).map (Text.replaceAll find put)
  | .lookup key table fallback, state =>
      (call key state).bind fun value => (table.lookup value).or fallback

/-- A function with a valueless argument has no value. -/
def callAll : List Tree → State → Option (List String)
  | [], _ => some []
  | argument :: arguments, state =>
      (call argument state).bind fun value => (callAll arguments state).map (value :: ·)

end

end Evaluator

/-! ### Its Postgres form -/

/-- `split(".")`: empty segments at the end are left out. -/
def pathLiteral (path : String) : List String :=
  (Text.segments '.' path).rdropWhile (· = "")

/-- A text expression over a jsonb record. -/
inductive TextSql where
  | text (s : String)
  | null
  | reference (path : List String)
  | translate (argument : TextSql) (find put : String)
  | concat (parts : List TextSql)
  | replace (target find put : TextSql)
  | lookup (key : TextSql) (branches : List (String × String)) (fallback : TextSql)

namespace ExpressionSql

def UPPER : String := "ABCDEFGHIJKLMNOPQRSTUVWXYZ"

def LOWER : String := Evaluator.downcase UPPER

mutual

def compile : Tree → TextSql
  | .lit text => .text text
  | .null => .null
  | .ref path => .reference (pathLiteral path.text)
  | .lower argument => .translate (compile argument) UPPER LOWER
  | .upper argument => .translate (compile argument) LOWER UPPER
  | .concat arguments => .concat (compileAll arguments)
  | .replace target find put => .replace (compile target) (.text find) (.text put)
  | .lookup key table fallback =>
      .lookup (compile key) table (fallback.elim TextSql.null TextSql.text)

def compileAll : List Tree → List TextSql
  | [] => []
  | argument :: arguments => compile argument :: compileAll arguments

end

end ExpressionSql

/-! ### The meaning of the Postgres form -/

namespace Jsonb

/-- `strtoint` over the whole of a path element. -/
def arrayIndex (key : String) : Option Int :=
  Text.parseI32 (String.ofList (key.toList.dropWhile fun c => c = ' ' || ('\t' ≤ c && c ≤ '\r')))

/-- The place an index names in an array, counted from its end where it is negative. -/
def place (index : Int) (length : Nat) : Option Nat :=
  if 0 ≤ index then some index.toNat
  else if index.natAbs ≤ length then some (length - index.natAbs)
  else none

/-- One step of `#>`: a member of an object, or an item of an array. -/
def child (held : Serde) (key : String) : Option Serde :=
  match held with
  | .object _ => held.get key
  | .array items =>
      ((arrayIndex key).bind fun index => place index items.length).bind fun i => items[i]?
  | _ => none

/-- `state #> path`, for a path that is not empty. -/
def reach (state : State) : List String → Option Serde
  | [] => none
  | key :: keys => keys.foldl (fun held key => held.bind (child · key)) (state key)

/-- `translate`: each character found is replaced by the one at its place. -/
def translate (find put : String) (s : String) : String :=
  String.ofList (s.toList.map fun c => ((find.toList.zip put.toList).lookup c).getD c)

mutual

/-- SQL's NULL is `none`. -/
def value : TextSql → State → Option String
  | .text s, _ => some s
  | .null, _ => none
  | .reference path, state => (reach state path).bind Serde.asStr
  | .translate argument find put, state => (value argument state).map (translate find put)
  | .concat parts, state => (values parts state).map String.join
  | .replace target find put, state =>
      (value target state).bind fun t =>
        (value find state).bind fun f => (value put state).map fun p => Text.replaceAll f p t
  | .lookup key branches fallback, state =>
      (value key state).bind fun v => (branches.lookup v).or (value fallback state)

def values : List TextSql → State → Option (List String)
  | [], _ => some []
  | part :: parts, state => (value part state).bind fun v => (values parts state).map (v :: ·)

end

end Jsonb

/-! ### The two have the same value -/

section Agreement

open Evaluator ExpressionSql Jsonb

theorem isWord_cons {s : String} (h : isWord s) :
    ∃ c cs, s.toList = c :: cs ∧ 95 ≤ c.toNat := by
  unfold isWord at h
  split at h
  · cases h
  · rename_i c cs hs
    refine ⟨c, cs, hs, ?_⟩
    simp only [Bool.and_eq_true, Bool.or_eq_true, decide_eq_true_eq] at h
    rcases h.1 with lower | rfl
    · simp only [Char.isLower, Bool.and_eq_true, decide_eq_true_eq] at lower
      have bound : ('a' : Char).toNat ≤ c.toNat := UInt32.le_iff_toNat_le.mp lower.1
      exact le_trans (by decide) bound
    · decide

theorem isWord_ne_empty {s : String} (h : isWord s) : s ≠ "" := by
  obtain ⟨c, cs, hs, -⟩ := isWord_cons h
  intro absurd
  rw [absurd] at hs
  cases hs

theorem le_iff_toNat (c d : Char) : c ≤ d ↔ c.toNat ≤ d.toNat := UInt32.le_iff_toNat_le

/-- No character a word begins with begins a number. -/
theorem arrayIndex_word {s : String} (h : isWord s) : arrayIndex s = none := by
  obtain ⟨c, cs, hs, high⟩ := isWord_cons h
  have other : ∀ d : Char, d.toNat < 95 → c ≠ d := by
    intro d hd same
    rw [same] at high
    omega
  have blank : (decide (c = ' ') || (decide ('\t' ≤ c) && decide (c ≤ '\r'))) = false := by
    have high' : ¬ c ≤ '\r' := by
      rw [le_iff_toNat]
      have : ('\r' : Char).toNat = 13 := rfl
      omega
    simp [other ' ' (by decide), high']
  have digit : Text.digit? c = none := by
    have high' : ¬ c ≤ '9' := by
      rw [le_iff_toNat]
      have : ('9' : Char).toNat = 57 := rfl
      omega
    simp [Text.digit?, high']
  have sign : Text.splitSign (c :: cs) = (false, c :: cs) := by
    unfold Text.splitSign
    split
    · rename_i heq
      cases heq
      exact absurd rfl (other '-' (by decide))
    · rename_i heq
      cases heq
      exact absurd rfl (other '+' (by decide))
    · rfl
  simp [arrayIndex, hs, List.dropWhile_cons, blank, Text.parseI32, sign, Text.digitsValue, digit]

theorem child_word {key : String} (h : isWord key) (held : Serde) :
    child held key = held.get key := by
  cases held with
  | array items => simp [child, arrayIndex_word h, Serde.get]
  | null | bool | number | string | object => rfl

theorem foldl_child {keys : List String} (h : keys.all isWord) (held : Option Serde) :
    keys.foldl (fun held key => held.bind (child · key)) held =
      keys.foldl (fun held key => held.bind (·.get key)) held := by
  induction keys generalizing held with
  | nil => rfl
  | cons key keys ih =>
    simp only [List.all_cons, Bool.and_eq_true] at h
    have step : held.bind (child · key) = held.bind (·.get key) := by
      congr 1
      funext value
      exact child_word h.1 value
    simp only [List.foldl_cons, step]
    exact ih h.2 _

theorem reach_words {keys : List String} (h : keys.all isWord) (state : State) :
    reach state keys = Evaluator.read state keys := by
  cases keys with
  | nil => rfl
  | cons key keys =>
    simp only [List.all_cons, Bool.and_eq_true] at h
    exact foldl_child h.2 (state key)

theorem pathLiteral_name (path : FieldName) : pathLiteral path.text = path.split := by
  unfold pathLiteral FieldName.split
  rw [List.rdropWhile_eq_self_iff]
  intro nonempty absurd
  have word := List.all_eq_true.mp path.words _ (List.getLast_mem nonempty)
  simp only [decide_eq_true_eq] at absurd
  exact isWord_ne_empty word absurd

theorem value_reference (path : FieldName) (state : State) :
    value (.reference (pathLiteral path.text)) state = reference path state := by
  have words : path.split.all isWord := path.words
  simp only [value, reference, pathLiteral_name]
  rw [reach_words words]

/-- A letter is found at its place, and any other character is not found. -/
theorem lookup_letter (find put : String) (turn : Char → Char)
    (ascii : ∀ n < 128, ((find.toList.zip put.toList).lookup (Char.ofNat n)).getD (Char.ofNat n) =
      turn (Char.ofNat n))
    (bounded : find.toList.all (·.toNat < 128) = true) (beyond : ∀ c : Char, 128 ≤ c.toNat → turn c = c)
    (s : String) : Jsonb.translate find put s = String.ofList (s.toList.map turn) := by
  unfold Jsonb.translate
  congr 1
  apply List.map_congr_left
  intro c _
  by_cases small : c.toNat < 128
  · have := ascii c.toNat small
    rwa [Char.ofNat_toNat] at this
  · have missing : (find.toList.zip put.toList).lookup c = none := by
      rw [List.lookup_eq_none_iff]
      intro pair hpair
      have : pair.1.toNat < 128 :=
        of_decide_eq_true (List.all_eq_true.mp bounded pair.1 (List.of_mem_zip hpair).1)
      simp only [bne_iff_ne]
      intro same
      rw [same] at small
      exact small this
    rw [missing, beyond c (by omega)]
    rfl

theorem translate_lower (s : String) : Jsonb.translate UPPER LOWER s = downcase s := by
  apply lookup_letter UPPER LOWER Char.toLower
  · decide +kernel
  · decide
  · intro c h
    have outside : ¬ c.val ≤ 'Z'.val := by
      rw [UInt32.le_iff_toNat_le]
      have last : 'Z'.val.toNat = 90 := rfl
      have here : c.val.toNat = c.toNat := rfl
      omega
    exact dif_neg fun inside => outside inside.2

theorem translate_upper (s : String) : Jsonb.translate LOWER UPPER s = upcase s := by
  apply lookup_letter LOWER UPPER Char.toUpper
  · decide +kernel
  · decide
  · intro c h
    have outside : ¬ c.val ≤ 'z'.val := by
      rw [UInt32.le_iff_toNat_le]
      have last : 'z'.val.toNat = 122 := rfl
      have here : c.val.toNat = c.toNat := rfl
      omega
    exact dif_neg fun inside => outside inside.2

mutual

/-- The compiled expression has the value the evaluator computes, over every record. -/
theorem value_compile : ∀ (tree : Tree) (state : State),
    value (compile tree) state = call tree state
  | .lit _, _ => rfl
  | .null, _ => rfl
  | .ref path, state => value_reference path state
  | .lower argument, state => by
    simp only [compile, value, call, value_compile argument]
    congr 1
    funext s
    exact translate_lower s
  | .upper argument, state => by
    simp only [compile, value, call, value_compile argument]
    congr 1
    funext s
    exact translate_upper s
  | .concat arguments, state => by
    simp only [compile, value, call, values_compileAll arguments]
  | .replace target find put, state => by
    simp only [compile, value, call, value_compile target, Option.bind_some]
    cases call target state <;> rfl
  | .lookup key table fallback, state => by
    simp only [compile, value, call, value_compile key]
    cases fallback <;> rfl

theorem values_compileAll : ∀ (arguments : List Tree) (state : State),
    values (compileAll arguments) state = callAll arguments state
  | [], _ => rfl
  | argument :: arguments, state => by
    simp only [compileAll, values, callAll, value_compile argument, values_compileAll arguments]

end

end Agreement

end Hecks.Era
