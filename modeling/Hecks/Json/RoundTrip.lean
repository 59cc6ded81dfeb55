import Hecks.Json.Rereading

/-! Writing a value and reading it back. The text reads as the value again, equal to the
first; whether an integer comes back as the same integer turns on whether the reader keeps
its digits. -/
open Reading Hecks.Json.Parser Hecks.Json.Grammar

namespace Hecks.Json

/-! ### Values -/

/-- The values built from null, booleans, 64-bit integers, strings, arrays and objects. -/
inductive Datum where
  | null
  | bool (b : Bool)
  | int (i : Int64)
  | str (s : String)
  | array (items : List Datum)
  | object (fields : List (String × Datum))

namespace Datum

mutual

def json : Datum → Json
  | null => .null
  | bool b => .bool b
  | int i => .int i
  | str s => .str s
  | array items => .array (jsons items)
  | object fields => .object (jsonFields fields)

def jsons : List Datum → List Json
  | [] => []
  | x :: xs => x.json :: jsons xs

def jsonFields : List (String × Datum) → List (String × Json)
  | [] => []
  | (k, x) :: fields => (k, x.json) :: jsonFields fields

end

mutual

/-- How deeply arrays and objects nest. -/
def depth : Datum → Nat
  | array items => depths items + 1
  | object fields => depthFields fields + 1
  | _ => 0

def depths : List Datum → Nat
  | [] => 0
  | x :: xs => max x.depth (depths xs)

def depthFields : List (String × Datum) → Nat
  | [] => 0
  | (_, x) :: fields => max x.depth (depthFields fields)

end

mutual

/-- The integers of a value. -/
def ints : Datum → List Int64
  | int i => [i]
  | array items => intItems items
  | object fields => intFields fields
  | _ => []

def intItems : List Datum → List Int64
  | [] => []
  | x :: xs => x.ints ++ intItems xs

def intFields : List (String × Datum) → List Int64
  | [] => []
  | (_, x) :: fields => x.ints ++ intFields fields

end

mutual

/-- What the text of a value reads back as. -/
def again : Datum → Json
  | null => .null
  | bool b => .bool b
  | int i => reread i
  | str s => .str s
  | array items => .array (agains items)
  | object fields => .object (againFields fields)

def agains : List Datum → List Json
  | [] => []
  | x :: xs => x.again :: agains xs

def againFields : List (String × Datum) → List (String × Json)
  | [] => []
  | (k, x) :: fields => (k, x.again) :: againFields fields

end

end Datum

mutual

/-- A JSON value as a datum, each number read by `exact_i64`. -/
def datum? : Json → Option Datum
  | .null => some .null
  | .bool b => some (.bool b)
  | .num n raw => (exactI64 n raw).map .int
  | .float _ => none
  | .str s => some (.str s)
  | .array items => (datums? items).map .array
  | .object fields => (datumFields? fields).map .object

def datums? : List Json → Option (List Datum)
  | [] => some []
  | v :: vs => (datum? v).bind fun x => (datums? vs).map (x :: ·)

def datumFields? : List (String × Json) → Option (List (String × Datum))
  | [] => some []
  | (k, v) :: fields =>
      (datum? v).bind fun x => (datumFields? fields).map ((k, x) :: ·)

end

/-! ### A datum is a value the kernel holds -/

namespace Held

mutual

/-- No declared float, which comes back as a number like any other. -/
def Floatless : Held → Prop
  | float _ => False
  | array items => FloatlessItems items
  | object fields => FloatlessFields fields
  | _ => True

def FloatlessItems : List Held → Prop
  | [] => True
  | x :: xs => x.Floatless ∧ FloatlessItems xs

def FloatlessFields : List (String × Held) → Prop
  | [] => True
  | (_, x) :: fields => x.Floatless ∧ FloatlessFields fields

end

end Held

namespace Datum

mutual

def held : Datum → Held
  | null => .null
  | bool b => .bool b
  | int i => .int i
  | str s => .str s
  | array items => .array (helds items)
  | object fields => .object (heldFields fields)

def helds : List Datum → List Held
  | [] => []
  | x :: xs => x.held :: helds xs

def heldFields : List (String × Datum) → List (String × Held)
  | [] => []
  | (k, x) :: fields => (k, x.held) :: heldFields fields

end

mutual

theorem held_spec : (x : Datum) → x.held.json = x.json ∧ x.held.depth = x.depth ∧
    x.held.again = x.again ∧ x.held.Finite ∧ x.held.Floatless
  | null | bool _ | int _ | str _ => ⟨rfl, rfl, rfl, trivial, trivial⟩
  | array items => by
    obtain ⟨json, depth, again, finite, floatless⟩ := helds_spec items
    simp only [held, Held.json, Held.depth, Held.again, Held.Finite, Held.Floatless, Datum.json,
      Datum.depth, Datum.again, json, depth, again, finite, floatless, and_self]
  | object fields => by
    obtain ⟨json, depth, again, finite, floatless⟩ := heldFields_spec fields
    simp only [held, Held.json, Held.depth, Held.again, Held.Finite, Held.Floatless, Datum.json,
      Datum.depth, Datum.again, json, depth, again, finite, floatless, and_self]

theorem helds_spec : (items : List Datum) → Held.jsons (helds items) = jsons items ∧
    Held.depths (helds items) = depths items ∧ Held.agains (helds items) = agains items ∧
    Held.FiniteItems (helds items) ∧ Held.FloatlessItems (helds items)
  | [] => ⟨rfl, rfl, rfl, trivial, trivial⟩
  | x :: xs => by
    obtain ⟨json, depth, again, finite, floatless⟩ := held_spec x
    obtain ⟨jsons, depths, agains, finites, floatlesses⟩ := helds_spec xs
    simp only [helds, Held.jsons, Held.depths, Held.agains, Held.FiniteItems,
      Held.FloatlessItems, Datum.jsons, Datum.depths, Datum.agains, json, depth, again, finite,
      floatless, jsons, depths, agains, finites, floatlesses, and_self]

theorem heldFields_spec : (fields : List (String × Datum)) →
    Held.jsonFields (heldFields fields) = jsonFields fields ∧
    Held.depthFields (heldFields fields) = depthFields fields ∧
    Held.againFields (heldFields fields) = againFields fields ∧
    Held.FiniteFields (heldFields fields) ∧ Held.FloatlessFields (heldFields fields)
  | [] => ⟨rfl, rfl, rfl, trivial, trivial⟩
  | (k, x) :: fields => by
    obtain ⟨json, depth, again, finite, floatless⟩ := held_spec x
    obtain ⟨jsons, depths, agains, finites, floatlesses⟩ := heldFields_spec fields
    simp only [heldFields, Held.jsonFields, Held.depthFields, Held.againFields,
      Held.FiniteFields, Held.FloatlessFields, Datum.jsonFields, Datum.depthFields,
      Datum.againFields, json, depth, again, finite, floatless, jsons, depths, agains, finites,
      floatlesses, and_self]

end

end Datum

section

variable {escapes : Char → Bool}

/-- The text of a datum reads as what it comes back as, whatever follows it. -/
theorem Datum.reads_write (x : Datum) (d : Nat) (rest : List Char)
    (shallow : d + x.depth ≤ maxDepth) (follows : Follows rest) :
    Reads (parseValue escapes false d (write x.json ++ rest)) x.again rest := by
  obtain ⟨json, depth, again, finite, -⟩ := x.held_spec
  rw [← json, ← again]
  rw [← depth] at shallow
  exact x.held.reads_write d rest shallow finite follows

/-- A datum that nests no deeper than the reader allows is read back whole. -/
theorem Datum.parse_toJsonString (x : Datum) (shallow : x.depth ≤ maxDepth) :
    Json.parse escapes x.json.toJsonString = .ok x.again := by
  obtain ⟨json, depth, again, finite, -⟩ := x.held_spec
  rw [← json, ← again]
  rw [← depth] at shallow
  exact x.held.parse_toJsonString shallow finite

end

/-! ### What comes back -/

theorem beq_self_of_isFinite {f : Float.Model} (h : f.isFinite = true) : (f == f) = true := by
  change Float.Model.UnpackedFloat.beq f.unpack f.unpack = true
  unfold Float.Model.isFinite at h
  cases unpacked : f.unpack with
  | notANumber => simp [unpacked, Float.Model.UnpackedFloat.isFinite] at h
  | infinity s => simp [unpacked, Float.Model.UnpackedFloat.isFinite] at h
  | zero s => rfl
  | finite s m e hm =>
    cases s with
    | positive => simp [Float.Model.UnpackedFloat.beq, Float.Model.UnpackedFloat.compare]
    | negative => simp [Float.Model.UnpackedFloat.beq, Float.Model.UnpackedFloat.compare]

theorem eq_reread (i : Int64) : eq (reread i) (Json.int i) = true := by
  unfold reread Json.int
  split
  next => simp [eq, eqNum]
  next same =>
    have finite : (Float.Model.ofInt64 i).isFinite = true := by
      by_contra infinite
      have := canonical_ne i (Bool.eq_false_of_not_eq_true infinite)
      simp_all
    simpa [eq, eqNum] using beq_self_of_isFinite finite

theorem eq_rewritten {n : Float.Model} {raw : Option String} (read : FromText n raw) :
    eq (rewritten n raw) (.num n raw) = true := by
  cases raw with
  | some text => simp [rewritten, eq, eqNum]
  | none =>
    obtain ⟨escapes, t, -, value⟩ := read
    have finite := finite_of_textless value
    unfold rewritten unsigned
    cases unpacked : n.unpack with
    | zero s =>
      have zero : (Float.Model.ofInt64 0 == n) = true := by
        change Float.Model.UnpackedFloat.beq (Float.Model.ofInt64 0).unpack n.unpack = true
        rw [unpacked]
        cases s <;> decide
      simpa [eq, eqNum] using zero
    | _ => simpa [eq, eqNum] using beq_self_of_isFinite finite

mutual

/-- What comes back equals the value that was written but for the declared floats in it. -/
theorem Held.eq_again_iff : (x : Held) → (eq x.again x.json = true ↔ x.Floatless)
  | .null => by simp [Held.again, Held.json, eq, Held.Floatless]
  | .bool b => by simp [Held.again, Held.json, eq, Held.Floatless]
  | .int i => by simpa [Held.again, Held.json, Held.Floatless] using eq_reread i
  | .float n => by simp [Held.again, Held.json, eq, Held.Floatless]
  | .number n raw read => by
    simpa [Held.again, Held.json, Held.Floatless] using eq_rewritten read
  | .str s => by simp [Held.again, Held.json, eq, Held.Floatless]
  | .array items => by
    simpa [Held.again, Held.json, eq, Held.Floatless] using Held.eq_agains_iff items
  | .object fields => by
    simpa [Held.again, Held.json, eq, Held.Floatless] using Held.eq_againFields_iff fields

theorem Held.eq_agains_iff : (items : List Held) →
    (eqItems (Held.agains items) (Held.jsons items) = true ↔ Held.FloatlessItems items)
  | [] => by simp [Held.agains, Held.jsons, eqItems, Held.FloatlessItems]
  | x :: xs => by
    simp only [Held.agains, Held.jsons, eqItems, Held.FloatlessItems, Bool.and_eq_true,
      Held.eq_again_iff x, Held.eq_agains_iff xs]

theorem Held.eq_againFields_iff : (fields : List (String × Held)) →
    (eqFields (Held.againFields fields) (Held.jsonFields fields) = true ↔
      Held.FloatlessFields fields)
  | [] => by simp [Held.againFields, Held.jsonFields, eqFields, Held.FloatlessFields]
  | (k, x) :: fields => by
    simp only [Held.againFields, Held.jsonFields, eqFields, Held.FloatlessFields,
      Bool.and_eq_true, beq_self_eq_true, true_and, Held.eq_again_iff x,
      Held.eq_againFields_iff fields]

end

theorem Datum.eq_again (x : Datum) : eq x.again x.json = true := by
  obtain ⟨json, -, again, -, floatless⟩ := x.held_spec
  rw [← json, ← again]
  exact x.held.eq_again_iff.mpr floatless

/-- The integer comes back as itself: it is a whole `f64`, or the reader keeps its digits
because the `f64` prints others. -/
def Survives (i : Int64) : Prop :=
  integralI64 (Float.Model.ofInt64 i) = some i ∨
    canonicalIntegerDigits (Float.Model.ofInt64 i) ≠ toString i.toInt

theorem datum?_reread (i : Int64) : datum? (reread i) = some (.int i) ↔ Survives i := by
  unfold reread Survives
  by_cases same : canonicalIntegerDigits (Float.Model.ofInt64 i) = toString i.toInt
  · simp [datum?, exactI64, same]
  · have differs : (canonicalIntegerDigits (Float.Model.ofInt64 i) != toString i.toInt) = true := by
      simpa using same
    rw [differs]
    simp only [if_true, datum?, exactI64, Option.bind_some, Decimal.parseI64_toString]
    exact ⟨fun _ => .inr same, fun _ => rfl⟩

mutual

theorem Datum.datum?_again : (x : Datum) →
    (datum? x.again = some x ↔ ∀ i ∈ x.ints, Survives i)
  | .null => by simp [Datum.again, datum?, Datum.ints]
  | .bool b => by simp [Datum.again, datum?, Datum.ints]
  | .int i => by simpa [Datum.again, Datum.ints] using datum?_reread i
  | .str s => by simp [Datum.again, datum?, Datum.ints]
  | .array items => by
    rw [Datum.again, datum?, Datum.ints, ← Datum.datums?_agains items]
    cases datums? (Datum.agains items) with
    | none => simp
    | some xs => simp
  | .object fields => by
    rw [Datum.again, datum?, Datum.ints, ← Datum.datumFields?_againFields fields]
    cases datumFields? (Datum.againFields fields) with
    | none => simp
    | some xs => simp

theorem Datum.datums?_agains : (items : List Datum) →
    (datums? (agains items) = some items ↔ ∀ i ∈ intItems items, Survives i)
  | [] => by simp [agains, datums?, intItems]
  | x :: xs => by
    rw [agains, datums?, intItems, List.forall_mem_append, ← Datum.datum?_again x,
      ← Datum.datums?_agains xs]
    cases datum? x.again with
    | none => simp
    | some y =>
      cases datums? (agains xs) with
      | none => simp
      | some ys => simp

theorem Datum.datumFields?_againFields : (fields : List (String × Datum)) →
    (datumFields? (againFields fields) = some fields ↔ ∀ i ∈ intFields fields, Survives i)
  | [] => by simp [againFields, datumFields?, intFields]
  | (k, x) :: fields => by
    rw [againFields, datumFields?, intFields, List.forall_mem_append, ← Datum.datum?_again x,
      ← Datum.datumFields?_againFields fields]
    cases datum? x.again with
    | none => simp
    | some y =>
      cases datumFields? (againFields fields) with
      | none => simp
      | some ys => simp

end

/-- Writing a datum and reading the text gives a value equal to the first one and spelling
out the same datum exactly when every integer in it survives. -/
theorem round_trip_iff_integers_survive {escapes : Char → Bool} (x : Datum)
    (shallow : x.depth ≤ maxDepth) :
    (∃ w, Json.parse escapes x.json.toJsonString = .ok w ∧ eq w x.json = true ∧
      datum? w = some x) ↔ ∀ i ∈ x.ints, Survives i := by
  rw [← x.datum?_again, x.parse_toJsonString shallow]
  constructor
  · rintro ⟨w, same, -, exact'⟩
    cases same
    exact exact'
  · intro back
    exact ⟨x.again, rfl, x.eq_again, back⟩

theorem small_integers_survive :
    (Datum.array [.int 42, .int (-7), .int 9007199254740993]).depth ≤ maxDepth ∧
      ∃ w, Json.parse (fun _ => false)
          (Datum.array [.int 42, .int (-7), .int 9007199254740993]).json.toJsonString = .ok w ∧
        eq w (Datum.array [.int 42, .int (-7), .int 9007199254740993]).json = true ∧
        datum? w = some (Datum.array [.int 42, .int (-7), .int 9007199254740993]) := by
  have shallow : (Datum.array [.int 42, .int (-7), .int 9007199254740993]).depth ≤ maxDepth := by
    decide
  refine ⟨shallow, (round_trip_iff_integers_survive _ shallow).mpr ?_⟩
  simp only [Datum.ints, Datum.intItems, List.append_nil, List.cons_append, List.nil_append]
  intro i mem
  simp only [List.mem_cons, List.not_mem_nil, or_false] at mem
  rcases mem with rfl | rfl | rfl
  · exact .inl (by decide)
  · exact .inl (by decide)
  · exact .inr (by decide)

/-- The digits `1152921504606847000` are those the `f64` nearest to them prints, so they are
not kept, and the integer comes back as that `f64`: `1152921504606846976`. -/
theorem long_integer_comes_back_changed :
    ¬ ∃ w, Json.parse (fun _ => false) (Datum.int 1152921504606847000).json.toJsonString = .ok w ∧
      eq w (Datum.int 1152921504606847000).json = true ∧
      datum? w = some (.int 1152921504606847000) := by
  rintro ⟨w, found, -, exact'⟩
  rw [Datum.parse_toJsonString _ (by decide)] at found
  cases found
  have survives := (datum?_reread 1152921504606847000).mp exact'
  rcases survives with whole | kept
  · exact absurd whole (by decide)
  · exact kept (by decide)

end Hecks.Json
