import Hecks.Json.Parser

/-! What each reader reads, one equivalence for each function of the parser: its callers and
the proofs about it never unfold it again. -/
namespace Hecks.Json.Parser

open Reading

section

variable {escapes : Char → Bool} {keep : Bool} {d : Nat} {cs rest : List Char}

theorem reads_expect {ch : Char} {v : Unit} :
    Reads (expect escapes ch cs) v rest ↔ cs = ch :: rest := by
  constructor
  · rintro ⟨r, eq, -, rfl⟩
    cases cs with
    | nil => cases eq
    | cons c cs =>
      by_cases same : c = ch
      · simp only [expect, same, if_true] at eq
        cases eq
        rw [same]
      · simp [expect, same] at eq
  · rintro rfl
    exact ⟨⟨(), rest, Nat.le_succ _⟩, by simp [expect], rfl, rfl⟩

/-! ### Strings -/

theorem reads_stringBody_nil {s : List Char} : ¬ Reads (stringBody escapes []) s rest := by
  rintro ⟨r, eq, -, -⟩
  rw [stringBody] at eq
  cases eq

theorem reads_stringBody_quote {s : List Char} :
    Reads (stringBody escapes ('"' :: cs)) s rest ↔ s = [] ∧ rest = cs := by
  constructor
  · rintro ⟨r, eq, rfl, rfl⟩
    rw [stringBody] at eq
    cases eq
    exact ⟨rfl, rfl⟩
  · rintro ⟨rfl, rfl⟩
    exact ⟨⟨[], rest, Nat.le_succ _⟩, by rw [stringBody], rfl, rfl⟩

theorem reads_stringBody_plain {c : Char} {s : List Char} (quote : c ≠ '"') (slash : c ≠ '\\') :
    Reads (stringBody escapes (c :: cs)) s rest ↔
      ∃ t, Reads (stringBody escapes cs) t rest ∧ s = c :: t := by
  have step : stringBody escapes (c :: cs) = stringBody escapes cs >>= fun r =>
      pure ⟨c :: r.value, r.rest, Nat.le_succ_of_le r.within⟩ := by
    rw [stringBody]
    · exact quote
    · exact fun same _ => slash same
    · exact fun _ _ same _ => slash same
  rw [step]
  exact reads_map (f := fun t => c :: t)

theorem reads_stringBody_short {e : Char} {s : List Char} (short : e ≠ 'u') :
    Reads (stringBody escapes ('\\' :: e :: cs)) s rest ↔
      ∃ c, shortEscape e = some c ∧ ∃ t, Reads (stringBody escapes cs) t rest ∧ s = c :: t := by
  rw [stringBody, if_neg short]
  cases shortEscape e with
  | none =>
    constructor
    · rintro ⟨r, eq, -, -⟩
      cases eq
    · rintro ⟨c, none, -⟩
      cases none
  | some c =>
    dsimp only
    rw [reads_map (f := fun t => c :: t)]
    simp

theorem reads_stringBody_unicode {s : List Char} :
    Reads (stringBody escapes ('\\' :: 'u' :: cs)) s rest ↔
      ∃ code, Text.fromStrRadix16 (hexText cs) = some code ∧
        ∃ t, Reads (stringBody escapes (cs.drop 4)) t rest ∧ s = scalarOr code :: t := by
  rw [stringBody, if_pos rfl]
  cases Text.fromStrRadix16 (hexText cs) with
  | none =>
    constructor
    · rintro ⟨r, eq, -, -⟩
      cases eq
    · rintro ⟨c, none, -⟩
      cases none
  | some code =>
    dsimp only
    rw [reads_map (f := fun t => scalarOr code :: t)]
    simp

theorem reads_parseString {s : String} :
    Reads (parseString escapes cs) s rest ↔
      ∃ body t, cs = '"' :: body ∧ Reads (stringBody escapes body) t rest ∧
        s = String.ofList t := by
  constructor
  · rintro ⟨r, eq, rfl, rfl⟩
    obtain ⟨opened, hx, eq⟩ := bind_eq_ok.mp eq
    obtain ⟨body, hy, done⟩ := bind_eq_ok.mp eq
    cases pure_eq_ok.mp done
    have start := reads_expect.mp ⟨opened, hx, rfl, rfl⟩
    exact ⟨opened.rest, body.value, start, ⟨body, hy, rfl, rfl⟩, rfl⟩
  · rintro ⟨body, t, rfl, ⟨r, eq, rfl, rfl⟩, rfl⟩
    refine ⟨⟨String.ofList r.value, r.rest, Nat.le_succ_of_le r.within⟩, ?_, rfl, rfl⟩
    apply bind_eq_ok.mpr
    refine ⟨⟨(), body, Nat.le_succ _⟩, by simp [expect], ?_⟩
    apply bind_eq_ok.mpr
    exact ⟨r, eq, rfl⟩

/-! ### Literals and numbers -/

theorem consumeLiteral_eq_some {lit : String} {r : Read Unit cs.length} :
    consumeLiteral lit cs = some r ↔ cs = lit.toList ++ r.rest := by
  unfold consumeLiteral
  split
  next front =>
    obtain ⟨tail, rfl⟩ := List.isPrefixOf_iff_prefix.mp front
    rw [Option.some.injEq]
    constructor
    · rintro rfl
      simp
    · intro same
      obtain ⟨⟨⟩, rest, within⟩ := r
      simp_all
  next no =>
    constructor
    · intro h
      cases h
    · intro same
      exfalso
      apply no
      rw [same]
      exact List.isPrefixOf_iff_prefix.mpr ⟨r.rest, rfl⟩

theorem reads_parseNull {v : Json} :
    Reads (parseNull cs) v rest ↔ cs = "null".toList ++ rest ∧ v = .null := by
  unfold parseNull
  constructor
  · rintro ⟨r, eq, rfl, rfl⟩
    split at eq
    next a found =>
      cases eq
      exact ⟨consumeLiteral_eq_some.mp found, rfl⟩
    next => cases eq
  · rintro ⟨same, rfl⟩
    have within : rest.length ≤ cs.length := by simp [same]; omega
    have found : consumeLiteral "null" cs = some ⟨(), rest, within⟩ :=
      consumeLiteral_eq_some.mpr same
    rw [found]
    exact ⟨_, rfl, rfl, rfl⟩

theorem reads_parseBool {v : Json} :
    Reads (parseBool cs) v rest ↔
      (cs = "true".toList ++ rest ∧ v = .bool true) ∨
        (cs = "false".toList ++ rest ∧ v = .bool false) := by
  unfold parseBool
  constructor
  · rintro ⟨r, eq, rfl, rfl⟩
    split at eq
    next a found =>
      cases eq
      exact .inl ⟨consumeLiteral_eq_some.mp found, rfl⟩
    next =>
      split at eq
      next a found =>
        cases eq
        exact .inr ⟨consumeLiteral_eq_some.mp found, rfl⟩
      next => cases eq
  · rintro (⟨same, rfl⟩ | ⟨same, rfl⟩)
    · have within : rest.length ≤ cs.length := by simp [same]; omega
      have found : consumeLiteral "true" cs = some ⟨(), rest, within⟩ :=
        consumeLiteral_eq_some.mpr same
      rw [found]
      exact ⟨_, rfl, rfl, rfl⟩
    · have within : rest.length ≤ cs.length := by simp [same]; omega
      have found : consumeLiteral "false" cs = some ⟨(), rest, within⟩ :=
        consumeLiteral_eq_some.mpr same
      have other : consumeLiteral "true" cs = none := by
        rw [same]
        rfl
      rw [other, found]
      exact ⟨_, rfl, rfl, rfl⟩

theorem reads_parseNumber {v : Json} :
    Reads (parseNumber escapes keep cs) v rest ↔
      numberValue escapes keep (numberText cs).1 = .ok v ∧ (numberText cs).2 = rest := by
  constructor
  · rintro ⟨r, eq, rfl, rfl⟩
    obtain ⟨a, hx, done⟩ := bind_eq_ok.mp eq
    cases pure_eq_ok.mp done
    exact ⟨hx, rfl⟩
  · rintro ⟨hx, rfl⟩
    exact ⟨_, bind_eq_ok.mpr ⟨v, hx, rfl⟩, rfl, rfl⟩

/-! ### Values -/

theorem nested_eq_ok {α : Type} {body : Nat → Except String α} {a : α} :
    nested d body = .ok a ↔ d < maxDepth ∧ body (d + 1) = .ok a := by
  unfold nested
  by_cases deep : maxDepth ≤ d
  · rw [if_pos deep]
    constructor
    · intro h
      cases h
    · intro h
      omega
  · rw [if_neg deep]
    constructor
    · intro h
      exact ⟨by omega, h⟩
    · exact And.right

theorem reads_nested {α : Type} {n : Nat} {body : Nat → Except String (Read α n)} {v : α} :
    Reads (nested d body) v rest ↔ d < maxDepth ∧ Reads (body (d + 1)) v rest := by
  unfold Reads
  simp only [nested_eq_ok]
  constructor
  · rintro ⟨r, ⟨shallow, eq⟩, same⟩
    exact ⟨shallow, r, eq, same⟩
  · rintro ⟨shallow, r, eq, same⟩
    exact ⟨r, ⟨shallow, eq⟩, same⟩

/-- What the first character that is not a space commits the reader to. -/
def Starts (escapes : Char → Bool) (keep : Bool) (d : Nat) (c : Char) (body : List Char) (v : Json)
    (rest : List Char) : Prop :=
  (c = '\x7b' ∧ d < maxDepth ∧
    ∃ fields, Reads (parseObjectBody escapes keep (d + 1) body) fields rest ∧ v = .object fields) ∨
  (c = '[' ∧ d < maxDepth ∧
    ∃ items, Reads (parseArrayBody escapes keep (d + 1) body) items rest ∧ v = .array items) ∨
  (c = '"' ∧ ∃ s, Reads (parseString escapes (c :: body)) s rest ∧ v = .str s) ∨
  ((c = 't' ∨ c = 'f') ∧ Reads (parseBool (c :: body)) v rest) ∨
  (c = 'n' ∧ Reads (parseNull (c :: body)) v rest) ∨
  ((c = '-' ∨ isDigit c) ∧ Reads (parseNumber escapes keep (c :: body)) v rest)

theorem reads_parseValue {v : Json} :
    Reads (parseValue escapes keep d cs) v rest ↔
      ∃ c body, skipWs cs = c :: body ∧ Starts escapes keep d c body v rest := by
  rw [parseValue]
  split
  next none =>
    rw [none]
    constructor
    · rintro ⟨r, eq, -, -⟩
      cases eq
    · rintro ⟨c, body, eq, -⟩
      cases eq
  next c body some =>
    have only : (∃ c' body', skipWs cs = c' :: body' ∧ Starts escapes keep d c' body' v rest) ↔
        Starts escapes keep d c body v rest := by
      rw [some]
      constructor
      · rintro ⟨c', body', same, h⟩
        cases same
        exact h
      · intro h
        exact ⟨c, body, rfl, h⟩
    rw [only]
    unfold Starts
    dsimp only
    split
    next brace =>
      rw [reads_map (f := Json.object)]
      simp [brace, reads_nested, and_assoc, show isDigit '\x7b' = false from rfl]
    next notBrace =>
    split
    next bracket =>
      rw [reads_map (f := Json.array)]
      simp [bracket, reads_nested, and_assoc, show isDigit '[' = false from rfl]
    next notBracket =>
    split
    next quote =>
      rw [reads_map (f := Json.str)]
      simp [quote, show isDigit '"' = false from rfl]
    next notQuote =>
    split
    next bool =>
      rw [reads_widen]
      rcases bool with rfl | rfl
      · simp [show isDigit 't' = false from rfl]
      · simp [show isDigit 'f' = false from rfl]
    next notBool =>
    split
    next null =>
      rw [reads_widen]
      simp [null, show isDigit 'n' = false from rfl]
    next notNull =>
    split
    next number =>
      rw [reads_widen]
      simp [number, notBrace, notBracket, notQuote, notBool, notNull]
    next notNumber =>
      constructor
      · rintro ⟨r, eq, -, -⟩
        cases eq
      · simp [notBrace, notBracket, notQuote, notBool, notNull, notNumber]

/-- The reader of a value whose first character is known. -/
theorem reads_value {c : Char} {body : List Char} {v : Json} (first : skipWs cs = c :: body) :
    Reads (parseValue escapes keep d cs) v rest ↔ Starts escapes keep d c body v rest := by
  rw [reads_parseValue]
  constructor
  · rintro ⟨c', body', same, h⟩
    cases first.symm.trans same
    exact h
  · intro h
    exact ⟨c, body, first, h⟩

section

variable {body : List Char} {v : Json}

@[simp] theorem starts_brace :
    Starts escapes keep d '\x7b' body v rest ↔ d < maxDepth ∧
      ∃ fields, Reads (parseObjectBody escapes keep (d + 1) body) fields rest ∧
        v = .object fields := by
  simp [Starts, show isDigit '\x7b' = false from rfl]

@[simp] theorem starts_bracket :
    Starts escapes keep d '[' body v rest ↔ d < maxDepth ∧
      ∃ items, Reads (parseArrayBody escapes keep (d + 1) body) items rest ∧
        v = .array items := by
  simp [Starts, show isDigit '[' = false from rfl]

@[simp] theorem starts_quote :
    Starts escapes keep d '"' body v rest ↔
      ∃ t, Reads (stringBody escapes body) t rest ∧ v = .str (String.ofList t) := by
  simp only [Starts, reads_parseString, show isDigit '"' = false from rfl]
  simp

theorem starts_number {c : Char} (first : c = '-' ∨ isDigit c) :
    Starts escapes keep d c body v rest ↔
      Reads (parseNumber escapes keep (c :: body)) v rest := by
  have others : ∀ e : Char, isDigit e = false → e ≠ '-' → c ≠ e := by
    rintro e no dash rfl
    rcases first with rfl | digit
    · exact dash rfl
    · rw [no] at digit
      cases digit
  have brace := others '\x7b' rfl (by decide)
  have bracket := others '[' rfl (by decide)
  have quote := others '"' rfl (by decide)
  have t := others 't' rfl (by decide)
  have f := others 'f' rfl (by decide)
  have n := others 'n' rfl (by decide)
  simp [Starts, brace, bracket, quote, t, f, n, first]

/-- The words: `true`, `false`, `null`. -/
theorem starts_word {c : Char} (first : c = 't' ∨ c = 'f' ∨ c = 'n') :
    Starts escapes keep d c body v rest ↔
      (c :: body = "true".toList ++ rest ∧ v = .bool true) ∨
        (c :: body = "false".toList ++ rest ∧ v = .bool false) ∨
          (c :: body = "null".toList ++ rest ∧ v = .null) := by
  rcases first with rfl | rfl | rfl
  · simp [Starts, reads_parseBool, show isDigit 't' = false from rfl]
  · simp [Starts, reads_parseBool, show isDigit 'f' = false from rfl]
  · simp [Starts, reads_parseNull, show isDigit 'n' = false from rfl]

/-- A value starts with one of these characters. -/
theorem Starts.first {c : Char} (h : Starts escapes keep d c body v rest) :
    c = '\x7b' ∨ c = '[' ∨ c = '"' ∨ (c = 't' ∨ c = 'f' ∨ c = 'n') ∨ (c = '-' ∨ isDigit c) := by
  unfold Starts at h
  tauto

end

/-- A bracket closes the list at once, or its loop runs. -/
theorem reads_parseArrayBody {vs : List Json} :
    Reads (parseArrayBody escapes keep d cs) vs rest ↔
      (skipWs cs = ']' :: rest ∧ vs = []) ∨
        ((∀ body, skipWs cs ≠ ']' :: body) ∧ Reads (parseItems escapes keep d cs) vs rest) := by
  rw [parseArrayBody]
  split
  next body close =>
    constructor
    · rintro ⟨r, eq, rfl, rfl⟩
      cases eq
      exact .inl ⟨close, rfl⟩
    · rintro (⟨same, rfl⟩ | ⟨unclosed, _⟩)
      · cases close.symm.trans same
        exact ⟨_, rfl, rfl, rfl⟩
      · exact absurd close (unclosed body)
  next more =>
    rw [reads_widen]
    constructor
    · intro h
      exact .inr ⟨fun body => more body, h⟩
    · rintro (⟨same, -⟩ | ⟨-, h⟩)
      · exact absurd same (more rest)
      · exact h

theorem reads_parseObjectBody {fs : List (String × Json)} :
    Reads (parseObjectBody escapes keep d cs) fs rest ↔
      (skipWs cs = '\x7d' :: rest ∧ fs = []) ∨
        ((∀ body, skipWs cs ≠ '\x7d' :: body) ∧
          Reads (parseFields escapes keep d cs) fs rest) := by
  rw [parseObjectBody]
  split
  next body close =>
    constructor
    · rintro ⟨r, eq, rfl, rfl⟩
      cases eq
      exact .inl ⟨close, rfl⟩
    · rintro (⟨same, rfl⟩ | ⟨unclosed, _⟩)
      · cases close.symm.trans same
        exact ⟨_, rfl, rfl, rfl⟩
      · exact absurd close (unclosed body)
  next more =>
    rw [reads_widen]
    constructor
    · intro h
      exact .inr ⟨fun body => more body, h⟩
    · rintro (⟨same, -⟩ | ⟨-, h⟩)
      · exact absurd same (more rest)
      · exact h

/-- One round of the loop over a list. -/
theorem reads_parseItems {vs : List Json} :
    Reads (parseItems escapes keep d cs) vs rest ↔
      ∃ v after, Reads (parseValue escapes keep d cs) v after ∧
        ((skipWs after = ']' :: rest ∧ vs = [v]) ∨
          ∃ next ws, skipWs after = ',' :: next ∧ Reads (parseItems escapes keep d next) ws rest ∧
            vs = v :: ws) := by
  constructor
  · rintro ⟨r, eq, rfl, rfl⟩
    rw [parseItems] at eq
    obtain ⟨value, hv, eq⟩ := bind_eq_ok.mp eq
    refine ⟨value.value, value.rest, ⟨value, hv, rfl, rfl⟩, ?_⟩
    split at eq
    next next comma =>
      obtain ⟨more, hm, done⟩ := bind_eq_ok.mp eq
      cases pure_eq_ok.mp done
      exact .inr ⟨next, more.value, comma, ⟨more, hm, rfl, rfl⟩, rfl⟩
    next close bracket =>
      cases pure_eq_ok.mp eq
      exact .inl ⟨bracket, rfl⟩
    next => cases eq
  · rintro ⟨v, after, ⟨value, hv, rfl, rfl⟩, last⟩
    unfold Reads
    rw [parseItems, hv]
    simp only [bind, Except.bind]
    rcases last with ⟨close, rfl⟩ | ⟨next, ws, comma, ⟨more, hm, rfl, rfl⟩, rfl⟩
    · split
      next next comma =>
        rw [close] at comma
        cases comma
      next close' bracket =>
        rw [close] at bracket
        cases bracket
        exact ⟨_, rfl, rfl, rfl⟩
      next notBracket => exact absurd close (notBracket rest)
    · split
      next next' comma' =>
        rw [comma] at comma'
        cases comma'
        rw [hm]
        exact ⟨_, rfl, rfl, rfl⟩
      next close bracket =>
        rw [comma] at bracket
        cases bracket
      next notComma _ => exact absurd comma (notComma next)

/-- One round of the loop over an object's fields. -/
theorem reads_parseFields {fs : List (String × Json)} :
    Reads (parseFields escapes keep d cs) fs rest ↔
      ∃ key afterKey body v after, Reads (parseString escapes (skipWs cs)) key afterKey ∧
        skipWs afterKey = ':' :: body ∧ Reads (parseValue escapes keep d body) v after ∧
        ((skipWs after = '\x7d' :: rest ∧ fs = [(key, v)]) ∨
          ∃ next gs, skipWs after = ',' :: next ∧ Reads (parseFields escapes keep d next) gs rest ∧
            fs = (key, v) :: gs) := by
  constructor
  · rintro ⟨r, eq, rfl, rfl⟩
    rw [parseFields] at eq
    obtain ⟨key, hk, eq⟩ := bind_eq_ok.mp eq
    obtain ⟨colon, hc, eq⟩ := bind_eq_ok.mp eq
    obtain ⟨value, hv, eq⟩ := bind_eq_ok.mp eq
    refine ⟨key.value, key.rest, colon.rest, value.value, value.rest, ⟨key, hk, rfl, rfl⟩,
      reads_expect.mp ⟨colon, hc, rfl, rfl⟩, ⟨value, hv, rfl, rfl⟩, ?_⟩
    split at eq
    next next comma =>
      obtain ⟨more, hm, done⟩ := bind_eq_ok.mp eq
      cases pure_eq_ok.mp done
      exact .inr ⟨next, more.value, comma, ⟨more, hm, rfl, rfl⟩, rfl⟩
    next close bracket =>
      cases pure_eq_ok.mp eq
      exact .inl ⟨bracket, rfl⟩
    next => cases eq
  · rintro ⟨_, _, body, _, _, ⟨key, hk, rfl, rfl⟩, colon, ⟨value, hv, rfl, rfl⟩, last⟩
    have colonRead : Reads (expect escapes ':' (skipWs key.rest)) () body := reads_expect.mpr colon
    obtain ⟨opened, ho, -, rfl⟩ := colonRead
    unfold Reads
    rw [parseFields, hk]
    simp only [bind, Except.bind, ho, hv]
    rcases last with ⟨close, rfl⟩ | ⟨next, ws, comma, ⟨more, hm, rfl, rfl⟩, rfl⟩
    · split
      next next comma =>
        rw [close] at comma
        cases comma
      next close' bracket =>
        rw [close] at bracket
        cases bracket
        exact ⟨_, rfl, rfl, rfl⟩
      next notBrace => exact absurd close (notBrace rest)
    · split
      next next' comma' =>
        rw [comma] at comma'
        cases comma'
        rw [hm]
        exact ⟨_, rfl, rfl, rfl⟩
      next close bracket =>
        rw [comma] at bracket
        cases bracket
      next notComma _ => exact absurd comma (notComma next)

end

end Hecks.Json.Parser
