import Hecks.Heki.Files
import Hecks.Json.Rereading
import Hecks.Lib.Delimited
import Hecks.Lib.Utf8

/-! The journal lines and the snapshot text of a record that is a name. -/
namespace Hecks.Heki

open Slices

/-- The value written as this text. -/
noncomputable def reader {α : Type} (text : α → List UInt8) (data : List UInt8) : Option α :=
  open Classical in if h : ∃ a, text a = data then some h.choose else none

theorem reader_text {α : Type} {text : α → List UInt8} (inj : Function.Injective text) (a : α) :
    reader text (text a) = some a := by
  have found : ∃ b, text b = text a := ⟨a, rfl⟩
  rw [reader, dif_pos found]
  exact congrArg some (inj found.choose_spec)

theorem reader_none {α : Type} {text : α → List UInt8} {data : List UInt8}
    (none : ∀ a, text a ≠ data) : reader text data = Option.none := by
  rw [reader, dif_neg]
  rintro ⟨a, same⟩
  exact none a same

/-! ### A journal line -/

def nameKey : List Char := "\x7b\"name\":".toList

def operationKey : List Char := "\x7b\"operation\":\"".toList

def idKey : List Char := "\",\"id\":".toList

def stateKey : List Char := ",\"state\":".toList

def noMirrors : List Char := ",\"mirrors\":null\x7d".toList

def stateText (name : String) : List Char := nameKey ++ (Json.writeEscapedString name ++ ['\x7d'])

def operationText : Entry String → List Char
  | .save _ _ => "save".toList
  | .delete _ => "delete".toList

def Entry.id {σ : Type} : Entry σ → String
  | save id _ => id
  | delete id => id

def entryState : Entry String → List Char
  | .save _ name => stateText name
  | .delete _ => "null".toList

def lineText (e : Entry String) : List Char :=
  operationKey ++ (operationText e ++ (idKey ++ (Json.writeEscapedString e.id ++
    (stateKey ++ (entryState e ++ noMirrors)))))

theorem stateText_at (name : String) : Delimited.At stateText name := by
  intro other rest rest' same
  simp only [stateText, List.append_assoc] at same
  have same := List.append_cancel_left same
  obtain ⟨names, left⟩ := Json.writeEscapedString_at name other _ _ same
  exact ⟨names, List.append_cancel_left left⟩

theorem lineText_injective : Function.Injective lineText := by
  intro d e same
  have same := List.append_cancel_left same
  cases d with
  | save id name =>
    cases e with
    | save id' name' =>
      have same := List.append_cancel_left (List.append_cancel_left same)
      obtain ⟨ids, same⟩ := Json.writeEscapedString_at id id' _ _ same
      have same := List.append_cancel_left same
      obtain ⟨names, -⟩ := stateText_at name name' _ _ same
      rw [show id = id' from ids, names]
    | delete id' => exact absurd (List.cons.inj same).1 (by decide)
  | delete id =>
    cases e with
    | save id' name' => exact absurd (List.cons.inj same).1 (by decide)
    | delete id' =>
      have same := List.append_cancel_left (List.append_cancel_left same)
      obtain ⟨ids, -⟩ := Json.writeEscapedString_at id id' _ _ same
      rw [show id = id' from ids]

/-! ### The text of a snapshot -/

def recordText (record : Sigma fun _ : String => String) : List Char :=
  Json.writeEscapedString record.1 ++ ':' :: stateText record.2

def recordsText (records : Records String) : List Char :=
  Delimited.listed recordText '\x7b' ',' '\x7d' records.entries

theorem recordText_at (record : Sigma fun _ : String => String) :
    Delimited.At recordText record := by
  intro other rest rest' same
  simp only [recordText, List.append_assoc, List.cons_append] at same
  obtain ⟨ids, same⟩ := Json.writeEscapedString_at record.1 other.1 _ _ same
  obtain ⟨names, left⟩ := stateText_at record.2 other.2 _ _ (List.cons.inj same).2
  refine ⟨?_, left⟩
  cases record
  cases other
  cases ids
  cases names
  rfl

theorem recordsText_injective : Function.Injective recordsText := by
  intro a b same
  have each : Delimited.At (Delimited.listed recordText '\x7b' ',' '\x7d') a.entries := by
    apply Delimited.At.listed (by decide)
    · intro record _
      exact recordText_at record
    · intro record
      exact ⟨'"', _, rfl, by decide⟩
  exact AList.ext (each.inj same)

/-! ### No newline within a line -/

theorem newline_of_byte {cs : List Char} (mem : 10 ∈ bytes cs) : '\n' ∈ cs := by
  obtain ⟨c, inText, byte⟩ := List.mem_flatMap.mp mem
  rcases mem_utf8EncodeChar byte with ⟨-, same⟩ | high
  · have newline : c = '\n' := Char.toNat_inj.mp same
    exact newline ▸ inText
  · exact absurd high (by decide)

theorem newline_not_written (c : Char) : '\n' ∉ Json.writeEscapedChar c := by
  have plain : ∀ c : Char, c ≠ '\n' →
      '\n' ∉ if c.toNat < 0x20 then '\\' :: 'u' :: Json.hex4 c.toNat else [c] := by
    intro c other mem
    split at mem
    · rename_i control
      have digits : ∀ n : Fin 32, '\n' ∉ '\\' :: 'u' :: Json.hex4 n.val := by decide
      exact digits ⟨c.toNat, control⟩ mem
    · exact other (List.mem_singleton.mp mem).symm
  unfold Json.writeEscapedChar
  split <;> first | decide | (apply plain; assumption)

theorem newline_unescaped (s : String) : '\n' ∉ Json.writeEscapedString s := by
  intro mem
  have within : '\n' ∈ s.toList.flatMap Json.writeEscapedChar := by
    simpa [Json.writeEscapedString] using mem
  obtain ⟨c, -, written⟩ := List.mem_flatMap.mp within
  exact newline_not_written c written

theorem newline_not_mem (e : Entry String) : '\n' ∉ lineText e := by
  have keys : '\n' ∉ nameKey ∧ '\n' ∉ operationKey ∧ '\n' ∉ idKey ∧ '\n' ∉ stateKey ∧
      '\n' ∉ noMirrors := by decide
  obtain ⟨inName, inOperation, inId, inState, inMirrors⟩ := keys
  have inOperations : '\n' ∉ operationText e := by
    cases e with
    | save id name => exact show '\n' ∉ "save".toList by decide
    | delete id => exact show '\n' ∉ "delete".toList by decide
  have inEntry : '\n' ∉ entryState e := by
    cases e with
    | save id name =>
      have inText : '\n' ∉ stateText name := by
        simp [stateText, inName, newline_unescaped]
      exact inText
    | delete id => exact show '\n' ∉ "null".toList by decide
  simp [lineText, inOperation, inOperations, inId, newline_unescaped, inState, inEntry, inMirrors]

/-- The codec of such records, the body of a snapshot left uncompressed. -/
noncomputable def nameCodec : Codec String where
  generate e := bytes (lineText e)
  parse line := reader (fun e => bytes (lineText e))
    (if line.getLast? = some 10 then line.dropLast else line)
  deflate records := bytes (recordsText records)
  inflate := reader fun records => bytes (recordsText records)
  noNewline e mem := newline_not_mem e (newline_of_byte mem)
  filled e empty := by
    have none : operationKey ++ _ = [] := bytes_eq_nil.mp empty
    exact absurd (List.append_eq_nil_iff.mp none).1 (by decide)
  parse_generate e := by
    have unended : (bytes (lineText e)).getLast? ≠ some 10 := fun last =>
      newline_not_mem e (newline_of_byte (List.mem_of_getLast? last))
    rw [if_neg unended]
    exact reader_text (bytes_injective.comp lineText_injective) e
  parse_line e := by
    rw [if_pos List.getLast?_concat, List.dropLast_concat]
    exact reader_text (bytes_injective.comp lineText_injective) e
  inflate_deflate records :=
    reader_text (bytes_injective.comp recordsText_injective) records

end Hecks.Heki
