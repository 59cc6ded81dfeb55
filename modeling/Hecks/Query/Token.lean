import Hecks.Query.Sequence
import Hecks.Json.RoundTrip

/-! A token reads back as the position it was made from. -/
namespace Hecks.Query

open Reading Json.Parser Json.Grammar

/-! ### The base64 of bytes -/

theorem findIdx?_sextetChar {i : Nat} (small : i < 64) :
    alphabet.findIdx? (· = sextetChar i) = some i := by
  have all : ∀ i : Fin 64, alphabet.findIdx? (· = sextetChar i) = some i.val := by decide +kernel
  exact all ⟨i, small⟩

theorem sextetChar_ne (i : Nat) : sextetChar i ≠ '=' := by
  by_cases small : i < 64
  · have all : ∀ i : Fin 64, sextetChar i ≠ '=' := by decide +kernel
    exact all ⟨i, small⟩
  · have length : alphabet.length = 64 := by decide
    have past : alphabet[i]? = none := List.getElem?_eq_none (by omega)
    simp [sextetChar, past]

theorem sextet_eq (n i : Nat) : sextet n i = n / 2 ^ (18 - 6 * i) % 64 := by
  unfold sextet
  rw [Nat.shiftRight_eq_div_pow]
  exact Nat.and_two_pow_sub_one_eq_mod _ 6

theorem sextet_lt (n i : Nat) : sextet n i < 64 := by
  rw [sextet_eq]
  omega

/-- The sextets of a list of bytes. -/
def sextets : List UInt8 → List Nat
  | [] => []
  | [a] => [sextet (a.toNat <<< 16) 0, sextet (a.toNat <<< 16) 1]
  | [a, b] =>
      let n := a.toNat <<< 16 ||| b.toNat <<< 8
      [sextet n 0, sextet n 1, sextet n 2]
  | a :: b :: c :: rest =>
      let n := a.toNat <<< 16 ||| b.toNat <<< 8 ||| c.toNat
      [sextet n 0, sextet n 1, sextet n 2, sextet n 3] ++ sextets rest

theorem base64Url_eq (bytes : List UInt8) : base64Url bytes = (sextets bytes).map sextetChar := by
  fun_induction sextets bytes with
  | case1 => rfl
  | case2 a => simp [base64Url, base64Group, List.range_succ]
  | case3 a b n => simp [base64Url, base64Group, List.range_succ, n]
  | case4 a b c rest n ih => simp [base64Url, base64Group, List.range_succ, ih, n]

theorem sextets_lt (bytes : List UInt8) : ∀ s ∈ sextets bytes, s < 64 := by
  fun_induction sextets bytes with
  | case1 => simp
  | case2 a => simp [sextet_lt]
  | case3 a b n => simp [sextet_lt]
  | case4 a b c rest n ih => simpa [sextet_lt] using ih

theorem mapM_sextetChar {ss : List Nat} (small : ∀ s ∈ ss, s < 64) :
    (ss.map sextetChar).mapM (fun c => alphabet.findIdx? (· = c)) = some ss := by
  induction ss with
  | nil => rfl
  | cons s ss ih =>
    rw [List.map_cons, List.mapM_cons, findIdx?_sextetChar (small s List.mem_cons_self),
      ih fun t ht => small t (List.mem_cons_of_mem _ ht)]
    rfl

theorem ofNat_byte {n : Nat} {b : UInt8} (h : n % 256 = b.toNat) : UInt8.ofNat n = b := by
  apply UInt8.toNat_inj.mp
  rw [UInt8.toNat_ofNat']
  exact h

/-- Bits that do not overlap add up. -/
theorem shift_or (x k y : Nat) (fits : y < 2 ^ k) : x <<< k ||| y = x * 2 ^ k + y := by
  rw [← Nat.shiftLeft_add_eq_or_of_lt fits, Nat.shiftLeft_eq]

theorem four_sextets (n : Nat) (small : n < 2 ^ 24) :
    sextet n 0 <<< 18 ||| sextet n 1 <<< 12 ||| sextet n 2 <<< 6 ||| sextet n 3 = n := by
  have h1 := sextet_lt n 1
  have h2 := sextet_lt n 2
  have h3 := sextet_lt n 3
  have last := shift_or (sextet n 2) 6 _ h3
  have tail : sextet n 1 <<< 12 ||| (sextet n 2 <<< 6 ||| sextet n 3) =
      sextet n 1 * 2 ^ 12 + (sextet n 2 * 2 ^ 6 + sextet n 3) := by
    rw [last]
    exact shift_or _ _ _ (by omega)
  rw [Nat.or_assoc, Nat.or_assoc, tail, shift_or _ _ _ (by omega)]
  simp only [sextet_eq]
  omega

/-- A group of two to four sextets holds the bytes of the number they add up to. -/
theorem unbase64Group_eq {ss : List Nat} {n : Nat} (some : ss.length ≠ 1)
    (whole : ss.zipIdx.foldl (fun acc s => acc ||| (s.1 <<< (18 - 6 * s.2))) 0 = n) :
    unbase64Group ss =
      .some ((List.range (ss.length - 1)).map fun i => UInt8.ofNat (n >>> (16 - 8 * i))) := by
  unfold unbase64Group
  rw [if_neg some]
  dsimp only
  rw [whole]

section

variable {n : Nat} {a b c : UInt8}

theorem unbase64Group_four (bytes : n = a.toNat * 2 ^ 16 + b.toNat * 2 ^ 8 + c.toNat) :
    unbase64Group [sextet n 0, sextet n 1, sextet n 2, sextet n 3] = some [a, b, c] := by
  have ha := a.toNat_lt
  have hb := b.toNat_lt
  have hc := c.toNat_lt
  have whole := four_sextets n (by omega)
  rw [unbase64Group_eq (by simp) (by simpa using whole)]
  simp only [List.length_cons, List.length_nil, List.range_succ, List.range_zero,
    List.nil_append, List.cons_append, List.map_cons, List.map_nil, Option.some.injEq,
    Nat.shiftRight_eq_div_pow, List.cons.injEq, and_true]
  refine ⟨ofNat_byte ?_, ofNat_byte ?_, ofNat_byte ?_⟩
  · omega
  · omega
  · omega

theorem unbase64Group_three (bytes : n = a.toNat * 2 ^ 16 + b.toNat * 2 ^ 8) :
    unbase64Group [sextet n 0, sextet n 1, sextet n 2] = some [a, b] := by
  have ha := a.toNat_lt
  have hb := b.toNat_lt
  have whole := four_sextets n (by omega)
  have third : sextet n 3 = 0 := by
    rw [sextet_eq]
    omega
  rw [third, Nat.or_zero] at whole
  rw [unbase64Group_eq (by simp) (by simpa using whole)]
  simp only [List.length_cons, List.length_nil, List.range_succ, List.range_zero,
    List.nil_append, List.cons_append, List.map_cons, List.map_nil, Option.some.injEq,
    Nat.shiftRight_eq_div_pow, List.cons.injEq, and_true]
  refine ⟨ofNat_byte ?_, ofNat_byte ?_⟩
  · omega
  · omega

theorem unbase64Group_two (bytes : n = a.toNat * 2 ^ 16) :
    unbase64Group [sextet n 0, sextet n 1] = some [a] := by
  have ha := a.toNat_lt
  have whole := four_sextets n (by omega)
  have second : sextet n 2 = 0 := by
    rw [sextet_eq]
    omega
  have third : sextet n 3 = 0 := by
    rw [sextet_eq]
    omega
  rw [third, second, Nat.zero_shiftLeft, Nat.or_zero, Nat.or_zero] at whole
  rw [unbase64Group_eq (by simp) (by simpa using whole)]
  simp only [List.length_cons, List.length_nil, List.range_succ, List.range_zero,
    List.nil_append, List.map_cons, List.map_nil, Option.some.injEq,
    Nat.shiftRight_eq_div_pow, List.cons.injEq, and_true]
  exact ofNat_byte (by omega)

end

theorem unbase64Groups_sextets (bytes : List UInt8) :
    unbase64Groups (sextets bytes) = some bytes := by
  fun_induction sextets bytes with
  | case1 => rfl
  | case2 a =>
    apply unbase64Group_two
    rw [Nat.shiftLeft_eq]
  | case3 a b n =>
    have hb := b.toNat_lt
    apply unbase64Group_three
    rw [show n = a.toNat <<< 16 ||| b.toNat <<< 8 from rfl, Nat.shiftLeft_eq b.toNat,
      shift_or _ _ _ (by omega)]
  | case4 a b c rest n ih =>
    have hb := b.toNat_lt
    have hc := c.toNat_lt
    have group : unbase64Group [sextet n 0, sextet n 1, sextet n 2, sextet n 3] =
        some [a, b, c] := by
      apply unbase64Group_four
      rw [show n = a.toNat <<< 16 ||| b.toNat <<< 8 ||| c.toNat from rfl, Nat.or_assoc,
        shift_or b.toNat _ _ hc, shift_or _ _ _ (by omega)]
      omega
    simp only [List.cons_append, List.nil_append, unbase64Groups, group, ih, Option.bind_some,
      Option.map_some]

theorem base64Url_no_padding {bytes : List UInt8} {c : Char} (h : c ∈ base64Url bytes) :
    c ≠ '=' := by
  rw [base64Url_eq] at h
  obtain ⟨s, -, rfl⟩ := List.mem_map.mp h
  exact sextetChar_ne s

theorem unbase64Url_base64Url (bytes : List UInt8) :
    unbase64Url (base64Url bytes) = some bytes := by
  have kept : (base64Url bytes).rdropWhile (· = '=') = base64Url bytes := by
    apply List.rdropWhile_eq_self_iff.mpr
    intro nonempty
    simpa using base64Url_no_padding (List.getLast_mem nonempty)
  unfold unbase64Url
  rw [kept, base64Url_eq, mapM_sextetChar (sextets_lt bytes), Option.bind_some,
    unbase64Groups_sextets]

/-! ### The position in the token -/

section

variable {escapes : Char → Bool} {value value' : Json} {id : String}

theorem fromUTF8?_toUTF8 (s : String) :
    String.fromUTF8? (s.toUTF8.data.toList).toByteArray = some s := by
  have bytes : (s.toUTF8.data.toList).toByteArray = s.toByteArray := by
    apply ByteArray.ext
    rw [List.data_toByteArray, Array.toArray_toList]
    rfl
  rw [bytes, String.fromUTF8?, dif_pos s.isValidUTF8]
  rfl

/-- A token whose text reads as a pair of a value and the id. -/
theorem decode_encode
    (read : Json.parse escapes (Json.array [value, .str id]).toJsonString =
      .ok (.array [value', .str id])) :
    decode escapes (encode value id) = .ok (value', id) := by
  unfold decode encode
  rw [String.toList_ofList, unbase64Url_base64Url]
  dsimp only
  rw [fromUTF8?_toUTF8]
  dsimp only
  rw [read]

/-- The text of the value reads as the other value inside a list. -/
def ReadsAs (escapes : Char → Bool) (value value' : Json) : Prop :=
  ∀ rest, Json.Grammar.Follows rest →
    Reading.Reads (parseValue escapes false 1 (Json.write value ++ rest)) value' rest

theorem readsAs_null : ReadsAs escapes .null .null := by
  intro rest follows
  exact Json.Datum.reads_write .null 1 rest (by simp [Json.Datum.depth, maxDepth]) follows

theorem readsAs_str (s : String) : ReadsAs escapes (.str s) (.str s) := by
  intro rest follows
  exact Json.Datum.reads_write (.str s) 1 rest (by simp [Json.Datum.depth, maxDepth]) follows

theorem parse_pair (reads : ReadsAs escapes value value') (id : String) :
    Json.parse escapes (Json.array [value, .str id]).toJsonString =
      .ok (.array [value', .str id]) := by
  have text : Json.write (Json.array [value, .str id]) =
      '[' :: (Json.write value ++ ',' :: (Json.write (.str id) ++ [']'])) := by
    simp [Json.write, Json.writeItems]
  have first := reads (',' :: (Json.write (.str id) ++ [']'])) (Json.follows_closing (by simp) _)
  have second : Reading.Reads (parseValue escapes false 1 (Json.write (.str id) ++ [']'])) (.str id)
      [']'] := readsAs_str id _ (Json.follows_closing (by simp) [])
  have comma : skipWs (',' :: (Json.write (.str id) ++ [']'])) =
      ',' :: (Json.write (.str id) ++ [']']) := Json.skipWs_write _ (by decide)
  have close : skipWs [']'] = [']'] := Json.skipWs_write _ (by decide)
  have last := reads_parseItems.mpr ⟨.str id, [']'], second, .inl ⟨close, rfl⟩⟩
  have items := reads_parseItems.mpr ⟨value', _, first, .inr ⟨_, _, comma, last, rfl⟩⟩
  have skip : skipWs ('[' :: (Json.write value ++ ',' :: (Json.write (.str id) ++ [']']))) = _ :=
    Json.skipWs_write _ (by decide)
  obtain ⟨r, read, result, -⟩ := (reads_value skip).mpr (starts_bracket.mpr
    ⟨by simp [maxDepth], _, Json.reads_parseArrayBody_of_items items, rfl⟩)
  unfold Json.parse Json.parseWith Json.toJsonString
  rw [String.toList_ofList, text, read, ← result]
  rfl

end

/-! ### Any key the kernel holds -/

section

variable {escapes : Char → Bool}

/-- A token reads back its id and the key its text reads as. No other pair comes of it, and none
where the key nests too deep or holds a float that is not finite. -/
theorem decode_encode_held (key : Json.Held) (id : String) {value : Json} {back : String} :
    decode escapes (encode key.json id) = .ok (value, back) ↔
      (key.depth < maxDepth ∧ key.Finite) ∧ value = key.again ∧ back = id := by
  have pair : Json.array [key.json, .str id] = (Json.Held.array [key, .str id]).json := rfl
  have deep : (Json.Held.array [key, .str id]).depth = key.depth + 1 := by
    simp [Json.Held.depth, Json.Held.depths]
  have finite : (Json.Held.array [key, .str id]).Finite ↔ key.Finite := by
    simp [Json.Held.Finite, Json.Held.FiniteItems]
  have again : (Json.Held.array [key, .str id]).again = .array [key.again, .str id] := rfl
  have text : decode escapes (encode key.json id) = .ok (value, back) ↔
      Json.parse escapes (Json.Held.array [key, .str id]).json.toJsonString =
        .ok (.array [value, .str back]) := by
    unfold decode encode
    rw [String.toList_ofList, unbase64Url_base64Url, pair]
    dsimp only
    rw [fromUTF8?_toUTF8]
    dsimp only
    split
    · rename_i v i parsed
      rw [parsed]
      simp
    · rename_i other
      constructor
      · intro refused
        cases refused
      · intro parsed
        exact absurd parsed (other _ _)
  rw [text, Json.Held.parse_eq_ok, deep, finite, again]
  simp only [Json.array.injEq, List.cons.injEq, Json.str.injEq, and_true, Nat.add_one_le_iff,
    and_assoc]

/-- What a token keeps: every byte of its text, the id, and the key up to its declared floats. -/
theorem token_keeps_position :
    (∀ bytes : List UInt8, unbase64Url (base64Url bytes) = some bytes) ∧
      ∀ (escapes : Char → Bool) (key : Json.Held) (id : String),
        (∀ (value : Json) (back : String),
          decode escapes (encode key.json id) = .ok (value, back) ↔
            (key.depth < maxDepth ∧ key.Finite) ∧ value = key.again ∧ back = id) ∧
        (Json.eq key.again key.json = true ↔ key.Floatless) :=
  ⟨unbase64Url_base64Url, fun _ key id =>
    ⟨fun _ _ => decode_encode_held key id, key.eq_again_iff⟩⟩

/-- A declared float comes back as a plain number, which `PartialEq` tells from it. -/
theorem float_key_comes_back_as_number :
    ¬∀ (key : Json) (id : String), ∃ value, decode (fun _ => false) (encode key id) =
      .ok (value, id) ∧ Json.eq value key = true := by
  intro claim
  obtain ⟨value, read, same⟩ := claim (Json.Held.float (Float.Model.ofInt64 1)).json "r1"
  obtain ⟨-, rfl, -⟩ := (decode_encode_held (.float (Float.Model.ofInt64 1)) "r1").mp read
  exact (Json.Held.float (Float.Model.ofInt64 1)).eq_again_iff.mp same

end

/-! ### Keys -/

/-- A number JSON has a text for: a finite `f64`, or a source text the reader takes. -/
inductive IsNumber : Json → Prop
  | float {n} : n.isFinite = true → IsNumber (.float n)
  | plain {n} : n.isFinite = true → IsNumber (.num n none)
  | text {n} {t : Numeral} : t.Loose → t.InRange → n.isNaN = false →
      Binary64.parse (String.ofList t.text) = some n → IsNumber (.num n (some (String.ofList t.text)))

section

variable {escapes : Char → Bool} {neg : Bool} {whole fraction : List Char} {n m : Float.Model}

/-- A number read off a numeral is the `f64` its text parses to. -/
theorem numberValue_numeral {t : Numeral} (loose : t.Loose) (range : t.InRange)
    (parsed : Binary64.parse (String.ofList t.text) = some n) :
    ∃ raw, numberValue escapes false t.text = .ok (.num n raw) := by
  have ok : ∃ v, numberValue escapes false t.text = .ok v :=
    (numberValue_ok_iff loose.toWellFormed loose.start).mpr ⟨loose, range⟩
  obtain ⟨v, found⟩ := ok
  have value := found
  unfold numberValue at value
  rw [parsed] at value
  dsimp only at value
  split at value
  · cases value
  · cases value
    exact ⟨_, found⟩

theorem readsAs_numeral {t : Numeral} {key : Json} (loose : t.Loose) (range : t.InRange)
    (parsed : Binary64.parse (String.ofList t.text) = some n) (text : Json.write key = t.text) :
    ∃ raw, ReadsAs escapes key (.num n raw) := by
  have found : ∃ raw, numberValue escapes false t.text = .ok (.num n raw) :=
    numberValue_numeral loose range parsed
  obtain ⟨raw, value⟩ := found
  refine ⟨raw, ?_⟩
  intro rest follows
  rw [text]
  exact Json.reads_numeral loose value 1 follows

/-- The text of the key reads as a number in the key's place. -/
def ReadsInPlace (escapes : Char → Bool) (key : Json) : Prop :=
  ∃ n raw, ReadsAs escapes key (.num n raw) ∧ n.unpack ≠ .notANumber ∧
    Decimal.place n.unpack = Decimal.place (asF64 key).unpack

theorem not_nan_of_finite (finite : n.isFinite = true) : n.unpack ≠ .notANumber := by
  intro nan
  simp [Float.Model.isFinite, nan, Float.Model.UnpackedFloat.isFinite] at finite

theorem readsInPlace_decimal {key : Json} (hw : ∀ c ∈ whole, c.isDigit)
    (hf : ∀ c ∈ fraction, c.isDigit) (nonempty : whole ≠ []) (finite : n.isFinite = true)
    (text : Json.write key = Decimal.signed neg (Decimal.numeral whole fraction))
    (parsed : Binary64.parse
      (String.ofList (Decimal.signed neg (Decimal.numeral whole fraction))) = some n)
    (place : Decimal.place n.unpack = Decimal.place (asF64 key).unpack) :
    ReadsInPlace escapes key := by
  rw [← Json.decimal_text] at text parsed
  have range : (Json.decimal neg whole fraction).InRange := .inr ⟨n, parsed, finite⟩
  have reads : ∃ raw, ReadsAs escapes key (.num n raw) :=
    readsAs_numeral (Json.decimal_loose hw hf nonempty) range parsed text
  obtain ⟨raw, reads⟩ := reads
  exact ⟨n, raw, reads, not_nan_of_finite finite, place⟩

/-- A text with no point and no exponent is digits alone. -/
theorem fraction_nil
    (plain : (!(Decimal.signed neg (Decimal.numeral whole fraction)).contains '.' &&
      !(Decimal.signed neg (Decimal.numeral whole fraction)).contains 'e' &&
      !(Decimal.signed neg (Decimal.numeral whole fraction)).contains 'E') = true) :
    fraction = [] := by
  cases fraction with
  | nil => rfl
  | cons d fraction => simp [Decimal.signed, Decimal.numeral] at plain; grind

theorem readsInPlace_float (finite : n.isFinite = true) : ReadsInPlace escapes (.float n) := by
  obtain ⟨neg, whole, fraction, text, hw, hf, nonempty, parsed⟩ := Decimal.display_numeral finite
  rw [text] at parsed
  by_cases plain : (!(Binary64.display n).toList.contains '.' &&
      !(Binary64.display n).toList.contains 'e' && !(Binary64.display n).toList.contains 'E') = true
  · have written : Json.write (.float n) = (Binary64.display n).toList ++ ['.', '0'] := by
      simp only [Json.write, Json.writeFloat, plain, if_true]
    rw [text, String.toList_ofList] at plain written
    obtain rfl := fraction_nil plain
    rw [← Decimal.parse_point_zero hw nonempty] at parsed
    refine readsInPlace_decimal hw (by simp) nonempty finite ?_ parsed rfl
    rw [written]
    cases neg <;> simp [Decimal.signed, Decimal.numeral]
  · have written : Json.write (.float n) = (Binary64.display n).toList := by
      simp only [Json.write, Json.writeFloat, plain, Bool.false_eq_true, if_false]
    rw [text, String.toList_ofList] at written
    exact readsInPlace_decimal hw hf nonempty finite written parsed rfl

theorem readsInPlace_plain (finite : n.isFinite = true) :
    ReadsInPlace escapes (.num n none) := by
  by_cases small : Binary64.isWhole n ∧ n.abs < Float.Model.ofScientific 1 15
  · have written : Json.write (.num n none) = (Json.integer n.toInt64).text := by
      rw [Json.integer_text]
      simp only [Json.write, canonicalIntegerDigits, small, and_self, if_true]
    have place := Decimal.place_toInt64 small.1 small.2
    have parsed : Binary64.parse (String.ofList (Json.integer n.toInt64).text) =
        some (Float.Model.ofInt64 n.toInt64) := by
      rw [Json.integer_text, String.ofList_toList]
      exact Decimal.parse_toString_int64 _
    have reads : ∃ raw, ReadsAs escapes (.num n none) (.num (Float.Model.ofInt64 n.toInt64) raw) :=
      readsAs_numeral (Json.integer_loose _) (.inl ⟨rfl, rfl⟩) parsed written
    obtain ⟨raw, reads⟩ := reads
    refine ⟨_, raw, reads, ?_, place⟩
    intro nan
    rw [nan] at place
    exact not_nan_of_finite finite (Decimal.place_nan place.symm)
  · obtain ⟨neg, whole, fraction, text, hw, hf, nonempty, parsed⟩ :=
      Decimal.display_numeral finite
    have written : Json.write (.num n none) = (Binary64.display n).toList := by
      simp only [Json.write, canonicalIntegerDigits, small, if_false]
    rw [text] at parsed
    rw [text, String.toList_ofList] at written
    exact readsInPlace_decimal hw hf nonempty finite written parsed rfl

theorem IsNumber.readsInPlace {key : Json} (number : IsNumber key) :
    ReadsInPlace escapes key := by
  cases number with
  | float finite => exact readsInPlace_float finite
  | plain finite => exact readsInPlace_plain finite
  | @text n t loose range notNan parsed =>
    have reads : ∃ raw, ReadsAs escapes (.num n (some (String.ofList t.text))) (.num n raw) :=
      readsAs_numeral loose range parsed (by rw [Json.write, String.toList_ofList])
    obtain ⟨raw, reads⟩ := reads
    refine ⟨_, raw, reads, ?_, rfl⟩
    intro nan
    simp [Float.Model.isNaN, nan, Float.Model.UnpackedFloat.isNaN] at notNan

theorem IsNumber.not_nan {key : Json} (number : IsNumber key) :
    (asF64 key).unpack ≠ .notANumber := by
  cases number with
  | float finite => exact not_nan_of_finite finite
  | plain finite => exact not_nan_of_finite finite
  | text loose range notNan parsed =>
    intro nan
    simp only [asF64] at nan
    simp [Float.Model.isNaN, nan, Float.Model.UnpackedFloat.isNaN] at notNan

/-- Numbers compare as their places do. -/
theorem compareComparable_number {a b : Json} (ha : isNumber a = true) (hb : isNumber b = true)
    (na : (asF64 a).unpack ≠ .notANumber) (nb : (asF64 b).unpack ≠ .notANumber) :
    compareComparable a b =
      compare (Decimal.place (asF64 a).unpack) (Decimal.place (asF64 b).unpack) := by
  have floats : compareComparable a b = compareFloats (asF64 a) (asF64 b) := by
    cases a <;> cases b <;> simp_all [isNumber, compareComparable, asF64]
  have compared := Decimal.compare_eq_place na nb
  rw [floats, compareFloats, Float.Model.compare, compared]
  rfl

theorem IsNumber.isNumber {key : Json} (number : IsNumber key) : isNumber key = true := by
  cases number <;> rfl

theorem isNull_number {key : Json} (number : Query.isNumber key = true) : isNull key = false := by
  cases key <;> simp_all [Query.isNumber, isNull, Json.eq]

end

/-- The keys are null or of one type: numbers, or strings. -/
def OfOneType (keys : List Json) : Prop :=
  (∀ key ∈ keys, key = .null ∨ IsNumber key) ∨ ∀ key ∈ keys, key = .null ∨ ∃ s, key = .str s

section

variable {escapes : Char → Bool} {keys : List Json}

/-- A key goes through a token and compares with the other keys as before. -/
theorem OfOneType.decode_encode (one : OfOneType keys) {key : Json} (mem : key ∈ keys)
    (id : String) : ∃ held, decode escapes (encode key id) = .ok (held, id) ∧
      isNull held = isNull key ∧ ∀ other ∈ keys, isNull other = false → isNull key = false →
        compareComparable other held = compareComparable other key := by
  have null : decode escapes (encode .null id) = .ok (.null, id) :=
    Query.decode_encode (parse_pair readsAs_null id)
  rcases one with numbers | strings
  · rcases numbers key mem with rfl | number
    · exact ⟨.null, null, rfl, fun _ _ _ _ => rfl⟩
    · have inPlace : ReadsInPlace escapes key := number.readsInPlace
      obtain ⟨n, raw, reads, notNan, place⟩ := inPlace
      refine ⟨.num n raw, Query.decode_encode (parse_pair reads id), ?_, ?_⟩
      · rw [isNull_number rfl, isNull_number number.isNumber]
      · intro other hother valued _
        rcases numbers other hother with rfl | number'
        · cases valued
        · have through : compareComparable other (.num n raw) =
              compare (Decimal.place (asF64 other).unpack) (Decimal.place n.unpack) :=
            @compareComparable_number other (.num n raw) number'.isNumber rfl number'.not_nan notNan
          rw [through, place, compareComparable_number number'.isNumber number.isNumber
            number'.not_nan number.not_nan]
  · rcases strings key mem with rfl | ⟨s, rfl⟩
    · exact ⟨.null, null, rfl, fun _ _ _ _ => rfl⟩
    · exact ⟨.str s, Query.decode_encode (parse_pair (readsAs_str s) id), rfl, fun _ _ _ _ => rfl⟩

end

end Hecks.Query
