import Hecks.Json.RoundTrip
import Hecks.Orchestrate.Cascade

/-! The saga snapshot a run ends with, and the seed the next run starts from. -/
namespace Hecks

open Json.Parser

/-! ### What a value means where it is read -/

/-- A value with each number taken as the Integer or the Float it is read as. -/
inductive Meaning where
  | null
  | bool (b : Bool)
  | int (i : Int64)
  | float (n : Float.Model)
  | str (s : String)
  | array (items : List Meaning)
  | object (fields : List (String × Meaning))

mutual

def Json.meaning : Json → Meaning
  | .null => .null
  | .bool b => .bool b
  | .num n raw => (exactI64 n raw).elim (.float n) .int
  | .float n => .float n
  | .str s => .str s
  | .array items => .array (meanings items)
  | .object fields => .object (meaningFields fields)

def Json.meanings : List Json → List Meaning
  | [] => []
  | v :: vs => v.meaning :: meanings vs

def Json.meaningFields : List (String × Json) → List (String × Meaning)
  | [] => []
  | (k, v) :: fields => (k, v.meaning) :: meaningFields fields

end

namespace Json.Held

mutual

/-- Every integer is one the reader gives back, and no declared float is a whole number within
`i64`. -/
def Survives : Held → Prop
  | int i => Json.Survives i
  | float n => integralI64 n = none
  | array items => SurvivesItems items
  | object fields => SurvivesFields fields
  | _ => True

def SurvivesItems : List Held → Prop
  | [] => True
  | x :: xs => x.Survives ∧ SurvivesItems xs

def SurvivesFields : List (String × Held) → Prop
  | [] => True
  | (_, x) :: fields => x.Survives ∧ SurvivesFields fields

end

theorem meaning_reread (i : Int64) :
    (reread i).meaning = (Json.int i).meaning ↔ Json.Survives i := by
  have written : (Json.int i).meaning = .int i := by
    simp only [Json.int, Json.meaning, exactI64, Option.bind_some, Decimal.parseI64_toString]
    rfl
  rw [written, ← datum?_reread]
  unfold reread
  simp only [Json.meaning, datum?]
  cases exactI64 (Float.Model.ofInt64 i) _ with
  | none => simp
  | some j => simp

theorem integralI64_zero {n : Float.Model} {s : Float.Model.UnpackedFloat.Sign}
    (eq : n.unpack = .zero s) : integralI64 n = some 0 := by
  have packed : Float.Model.pack n.unpack = n := by
    apply Packing.unpack_injective
    exact Packing.unpack_pack (Packing.fits_unpack n)
  rw [← packed, eq]
  cases s <;> decide

/-- A number the reader has made is read as what it was. -/
theorem meaning_rewritten (n : Float.Model) (raw : Option String) :
    (rewritten n raw).meaning = (Json.num n raw).meaning := by
  cases raw with
  | some raw => rfl
  | none =>
    have same : unsigned n = n ∨ integralI64 (unsigned n) = some 0 ∧ integralI64 n = some 0 := by
      cases eq : n.unpack with
      | zero s =>
        have zero : unsigned n = Float.Model.ofInt64 0 := by simp [unsigned, eq]
        rw [zero]
        exact .inr ⟨by decide, integralI64_zero eq⟩
      | _ => simp [unsigned, eq]
    simp only [rewritten, Json.meaning, exactI64, Option.bind_none, Option.none_or,
      Option.isSome_none, Bool.false_eq_true, if_false]
    rcases same with same | ⟨here, there⟩
    · rw [same]
    · rw [here, there]
      rfl

mutual

/-- A value comes back with its meaning exactly when it survives. -/
theorem meaning_again : (x : Held) → (x.again.meaning = x.json.meaning ↔ x.Survives)
  | null | bool _ | str _ => by simp [again, json, Survives]
  | number n raw _ => by
    simp only [again, json, Survives, iff_true]
    exact meaning_rewritten n raw
  | int i => meaning_reread i
  | float n => by
    simp only [again, json, Survives, Json.meaning, exactI64, Option.bind_none, Option.none_or]
    cases integralI64 n <;> simp
  | array items => by
    simp only [again, json, Survives, Json.meaning, Meaning.array.injEq]
    exact meanings_agains items
  | object fields => by
    simp only [again, json, Survives, Json.meaning, Meaning.object.injEq]
    exact meaningFields_againFields fields

theorem meanings_agains : (items : List Held) →
    (meanings (agains items) = meanings (jsons items) ↔ SurvivesItems items)
  | [] => by simp [agains, jsons, SurvivesItems]
  | x :: xs => by
    simp only [agains, jsons, SurvivesItems, meanings, List.cons.injEq, meaning_again x,
      meanings_agains xs]

theorem meaningFields_againFields : (fields : List (String × Held)) →
    (meaningFields (againFields fields) = meaningFields (jsonFields fields) ↔
      SurvivesFields fields)
  | [] => by simp [againFields, jsonFields, SurvivesFields]
  | (k, x) :: fields => by
    simp only [againFields, jsonFields, SurvivesFields, meaningFields, List.cons.injEq,
      Prod.mk.injEq, true_and, meaning_again x, meaningFields_againFields fields]

end

/-! ### Lists of values -/

section

variable {α : Type} (f : α → Held)

theorem jsons_map (xs : List α) : jsons (xs.map f) = xs.map fun x => (f x).json := by
  induction xs with
  | nil => rfl
  | cons x xs ih => simp only [List.map_cons, jsons, ih]

theorem agains_map (xs : List α) : agains (xs.map f) = xs.map fun x => (f x).again := by
  induction xs with
  | nil => rfl
  | cons x xs ih => simp only [List.map_cons, agains, ih]

theorem depths_le {xs : List α} {n : Nat} :
    depths (xs.map f) ≤ n ↔ ∀ x ∈ xs, (f x).depth ≤ n := by
  induction xs with
  | nil => simp [depths]
  | cons x xs ih => simp only [List.map_cons, depths, Nat.max_le, ih, List.forall_mem_cons]

theorem finiteItems_iff {xs : List α} : FiniteItems (xs.map f) ↔ ∀ x ∈ xs, (f x).Finite := by
  induction xs with
  | nil => simp [FiniteItems]
  | cons x xs ih => simp only [List.map_cons, FiniteItems, ih, List.forall_mem_cons]

end

end Json.Held

/-! ### The snapshot and the seed -/

namespace Cli

def asArray : Json → Option (List Json)
  | .array items => some items
  | _ => none

/-- `a.0.cmp(b.0)` is not greater. -/
def keyLe (a b : SagaKey) : Bool :=
  decide (a.1 < b.1) || (a.1 == b.1 && !decide (b.2 < a.2))

def sagaEntry (key : SagaKey) (inst : SagaInstance) : Json :=
  .object
    [("process_manager", .str key.1), ("correlation", .str key.2), ("state", .str inst.state),
     ("memory", inst.memory),
     ("completed_compensations", .array (inst.completedCompensations.map fun entry =>
        .object [("command_name", .str entry.commandName), ("args", entry.args)]))]

/-- The live sagas in key order. -/
def sagaSnapshotJson (sagas : AList fun _ : SagaKey => SagaInstance) : Json :=
  .array ((sagas.entries.mergeSort fun a b => keyLe a.1 b.1).map fun e => sagaEntry e.1 e.2)

def seedCompensation (entry : Json) : Option CompletedCompensation := do
  let commandName ← (entry.get "command_name").bind Json.asStr
  some ⟨commandName, (entry.get "args").getD .null⟩

def seedEntry (entry : Json) : Option (SagaKey × SagaInstance) := do
  let processManager ← (entry.get "process_manager").bind Json.asStr
  let correlation ← (entry.get "correlation").bind Json.asStr
  let state ← (entry.get "state").bind Json.asStr
  let memory := (entry.get "memory").getD (.object [])
  let completedCompensations :=
    ((entry.get "completed_compensations").bind asArray).elim [] (·.filterMap seedCompensation)
  some ((processManager, correlation), ⟨state, memory, completedCompensations⟩)

/-- The sagas an input seeds a run with. -/
def seedSagas (parsed : Json) : AList fun _ : SagaKey => SagaInstance :=
  ((parsed.get "sagas").bind asArray).elim ∅ fun entries =>
    (entries.filterMap seedEntry).foldl (fun sagas e => sagas.insert e.1 e.2) ∅

/-! ### What a run is seeded with -/

/-- What a run reads of a live saga: its state, its memory and its ledger, oldest first. -/
def meaningOf (inst : SagaInstance) : String × Meaning × List (String × Meaning) :=
  (inst.state, inst.memory.meaning,
    inst.completedCompensations.map fun entry => (entry.commandName, entry.args.meaning))

/-- The text of the snapshot is read, and seeds a run with every saga and no other. -/
def Restores (escapes : Char → Bool) (sagas : AList fun _ : SagaKey => SagaInstance) : Prop :=
  ∃ parsed, Json.parse escapes (sagaSnapshotJson sagas).toJsonString = .ok parsed ∧
    ∀ key, ((seedSagas (.object [("sagas", parsed)])).lookup key).map meaningOf =
      (sagas.lookup key).map meaningOf

/-- A live saga whose memory and ledger are values the kernel holds. -/
structure HeldSaga where
  state : String
  memory : Json.Held
  ledger : List (String × Json.Held)

namespace HeldSaga

def inst (saga : HeldSaga) : SagaInstance :=
  ⟨saga.state, saga.memory.json, saga.ledger.map fun e => ⟨e.1, e.2.json⟩⟩

/-- What the snapshot of a saga is read back as. -/
def again (saga : HeldSaga) : SagaInstance :=
  ⟨saga.state, saga.memory.again, saga.ledger.map fun e => ⟨e.1, e.2.again⟩⟩

def recorded (e : String × Json.Held) : Json.Held :=
  .object [("command_name", .str e.1), ("args", e.2)]

def entry (e : Sigma fun _ : SagaKey => HeldSaga) : Json.Held :=
  .object
    [("process_manager", .str e.1.1), ("correlation", .str e.1.2), ("state", .str e.2.state),
     ("memory", e.2.memory), ("completed_compensations", .array (e.2.ledger.map recorded))]

end HeldSaga

/-- The live sagas of a run. -/
def live (sagas : AList fun _ : SagaKey => HeldSaga) : AList fun _ : SagaKey => SagaInstance where
  entries := sagas.entries.map fun e => ⟨e.1, e.2.inst⟩
  nodupKeys := by
    have keys := sagas.nodupKeys
    unfold List.NodupKeys List.keys at keys ⊢
    rwa [List.map_map]

theorem entry_json (e : Sigma fun _ : SagaKey => HeldSaga) :
    (HeldSaga.entry e).json = sagaEntry e.1 e.2.inst := by
  simp only [HeldSaga.entry, Json.Held.json, Json.Held.jsonFields, Json.Held.jsons_map,
    HeldSaga.recorded, sagaEntry, HeldSaga.inst, List.map_map]
  rfl

theorem seedEntry_again (e : Sigma fun _ : SagaKey => HeldSaga) :
    seedEntry (HeldSaga.entry e).again = some (e.1, e.2.again) := by
  have ledger : (e.2.ledger.map fun x => (HeldSaga.recorded x).again).filterMap seedCompensation =
      e.2.ledger.map fun x => ⟨x.1, x.2.again⟩ := by
    induction e.2.ledger with
    | nil => rfl
    | cons x xs ih =>
      have head : seedCompensation (HeldSaga.recorded x).again = some ⟨x.1, x.2.again⟩ := rfl
      rw [List.map_cons, List.filterMap_cons, head, ih, List.map_cons]
  unfold HeldSaga.again
  rw [← ledger, ← Json.Held.agains_map]
  rfl

/-- The entries of a snapshot, in key order. -/
def ordered (sagas : AList fun _ : SagaKey => HeldSaga) :
    List (Sigma fun _ : SagaKey => HeldSaga) :=
  sagas.entries.mergeSort fun a b => keyLe a.1 b.1

def snapshot (sagas : AList fun _ : SagaKey => HeldSaga) : Json.Held :=
  .array ((ordered sagas).map HeldSaga.entry)

theorem mem_ordered {sagas : AList fun _ : SagaKey => HeldSaga}
    {e : Sigma fun _ : SagaKey => HeldSaga} : e ∈ ordered sagas ↔ e ∈ sagas.entries :=
  List.mem_mergeSort

theorem snapshot_json (sagas : AList fun _ : SagaKey => HeldSaga) :
    (snapshot sagas).json = sagaSnapshotJson (live sagas) := by
  have sorted : (live sagas).entries.mergeSort (fun a b => keyLe a.1 b.1) =
      (ordered sagas).map fun e => ⟨e.1, e.2.inst⟩ := by
    symm
    apply List.map_mergeSort
    intros
    rfl
  unfold sagaSnapshotJson
  rw [sorted, List.map_map]
  simp only [snapshot, Json.Held.json, Json.Held.jsons_map, entry_json]
  rfl

theorem seedSagas_again (sagas : AList fun _ : SagaKey => HeldSaga) :
    seedSagas (.object [("sagas", (snapshot sagas).again)]) =
      ((ordered sagas).map fun e => (e.1, e.2.again)).foldl
        (fun sagas e => sagas.insert e.1 e.2) ∅ := by
  have entries : ((ordered sagas).map fun e => (HeldSaga.entry e).again).filterMap seedEntry =
      (ordered sagas).map fun e => (e.1, e.2.again) := by
    rw [List.filterMap_map, ← List.filterMap_eq_map]
    apply List.filterMap_congr
    intro e _
    exact seedEntry_again e
  rw [← entries, ← Json.Held.agains_map]
  rfl

theorem lookup_foldl_insert {entries : List (SagaKey × SagaInstance)}
    (distinct : (entries.map Prod.fst).Nodup) (sagas : AList fun _ : SagaKey => SagaInstance) :
    (∀ e ∈ entries, (entries.foldl (fun sagas e => sagas.insert e.1 e.2) sagas).lookup e.1 =
      some e.2) ∧
    ∀ key, key ∉ entries.map Prod.fst →
      (entries.foldl (fun sagas e => sagas.insert e.1 e.2) sagas).lookup key =
        sagas.lookup key := by
  induction entries generalizing sagas with
  | nil => simp
  | cons e entries ih =>
    rw [List.map_cons, List.nodup_cons] at distinct
    obtain ⟨found, others⟩ := ih distinct.2 (sagas.insert e.1 e.2)
    constructor
    · intro e' mem
      rcases List.mem_cons.mp mem with rfl | mem
      · rw [List.foldl_cons, others _ distinct.1, AList.lookup_insert]
      · exact found e' mem
    · intro key fresh
      rw [List.map_cons, List.mem_cons, not_or] at fresh
      rw [List.foldl_cons, others key fresh.2, AList.lookup_insert_ne fresh.1]

theorem lookup_live (sagas : AList fun _ : SagaKey => HeldSaga) (key : SagaKey) :
    (live sagas).lookup key = (sagas.lookup key).map HeldSaga.inst := by
  cases found : sagas.lookup key with
  | some saga =>
    have mem : (⟨key, saga⟩ : Sigma fun _ : SagaKey => HeldSaga) ∈ sagas.entries :=
      AList.mem_lookup_iff.mp found
    apply AList.mem_lookup_iff.mpr
    exact List.mem_map.mpr ⟨_, mem, rfl⟩
  | none =>
    have absent := AList.lookup_eq_none.mp found
    apply AList.lookup_eq_none.mpr
    rw [AList.mem_keys] at absent ⊢
    have keys : (live sagas).keys = sagas.keys := by
      simp only [AList.keys, live, List.keys, List.map_map]
      rfl
    rwa [keys]

/-- A run seeded with what a snapshot reads back as holds each saga as it is read back. -/
theorem lookup_seeded (sagas : AList fun _ : SagaKey => HeldSaga) (key : SagaKey) :
    (seedSagas (.object [("sagas", (snapshot sagas).again)])).lookup key =
      (sagas.lookup key).map HeldSaga.again := by
  have distinct : (((ordered sagas).map fun e => (e.1, e.2.again)).map Prod.fst).Nodup := by
    rw [List.map_map]
    exact ((List.mergeSort_perm _ _).map _).nodup_iff.mpr sagas.nodupKeys
  obtain ⟨found, others⟩ := lookup_foldl_insert distinct ∅
  rw [seedSagas_again]
  cases look : sagas.lookup key with
  | some saga =>
    have mem : (⟨key, saga⟩ : Sigma fun _ : SagaKey => HeldSaga) ∈ ordered sagas :=
      mem_ordered.mpr (AList.mem_lookup_iff.mp look)
    exact found (key, saga.again) (List.mem_map.mpr ⟨_, mem, rfl⟩)
  | none =>
    rw [others key, AList.lookup_empty]
    · rfl
    · intro mem
      rw [List.map_map] at mem
      obtain ⟨e, known, rfl⟩ := List.mem_map.mp mem
      have held := AList.mem_lookup_iff.mpr (mem_ordered.mp known)
      cases look.symm.trans held

/-- A value written under some arrays and objects is within the reader's depth, its floats are
finite, and its numbers are read as what they were. -/
structure Carried (level : Nat) (x : Json.Held) : Prop where
  shallow : x.depth + level ≤ maxDepth
  finite : x.Finite
  survives : x.Survives

/-- A memory is written two levels down in the snapshot, and what a compensation is given four. -/
structure HeldSaga.Carried (saga : HeldSaga) : Prop where
  memory : Cli.Carried 2 saga.memory
  ledger : ∀ e ∈ saga.ledger, Cli.Carried 4 e.2

theorem meaningOf_again (saga : HeldSaga) :
    meaningOf saga.again = meaningOf saga.inst ↔
      saga.memory.Survives ∧ ∀ e ∈ saga.ledger, e.2.Survives := by
  simp only [meaningOf, HeldSaga.again, HeldSaga.inst, List.map_map, Prod.mk.injEq, true_and,
    Json.Held.meaning_again, List.map_inj_left, Function.comp_apply]

theorem entry_depth {e : Sigma fun _ : SagaKey => HeldSaga} {n : Nat} (room : 3 ≤ n) :
    (HeldSaga.entry e).depth + 1 ≤ n ↔
      e.2.memory.depth + 2 ≤ n ∧ ∀ x ∈ e.2.ledger, x.2.depth + 4 ≤ n := by
  have ledger : Json.Held.depths (e.2.ledger.map HeldSaga.recorded) ≤ n - 3 ↔
      ∀ x ∈ e.2.ledger, x.2.depth + 4 ≤ n := by
    rw [Json.Held.depths_le]
    apply forall₂_congr
    intro x _
    simp only [HeldSaga.recorded, Json.Held.depth, Json.Held.depthFields]
    omega
  rw [← ledger]
  simp only [HeldSaga.entry, Json.Held.depth, Json.Held.depthFields]
  omega

theorem entry_finite (e : Sigma fun _ : SagaKey => HeldSaga) :
    (HeldSaga.entry e).Finite ↔ e.2.memory.Finite ∧ ∀ x ∈ e.2.ledger, x.2.Finite := by
  simp only [HeldSaga.entry, HeldSaga.recorded, Json.Held.Finite, Json.Held.FiniteFields,
    Json.Held.finiteItems_iff, true_and, and_true]

theorem snapshot_depth (sagas : AList fun _ : SagaKey => HeldSaga) :
    (snapshot sagas).depth ≤ maxDepth ↔ ∀ e ∈ sagas.entries,
      e.2.memory.depth + 2 ≤ maxDepth ∧ ∀ x ∈ e.2.ledger, x.2.depth + 4 ≤ maxDepth := by
  have entries : (snapshot sagas).depth ≤ maxDepth ↔
      ∀ e ∈ ordered sagas, (HeldSaga.entry e).depth ≤ maxDepth - 1 := by
    rw [← Json.Held.depths_le]
    exact (Nat.le_sub_iff_add_le (by decide)).symm
  rw [entries]
  apply forall_congr'
  intro e
  rw [mem_ordered, ← entry_depth (by decide)]
  exact imp_congr_right fun _ => Nat.le_sub_iff_add_le (by decide)

theorem snapshot_finite (sagas : AList fun _ : SagaKey => HeldSaga) :
    (snapshot sagas).Finite ↔
      ∀ e ∈ sagas.entries, e.2.memory.Finite ∧ ∀ x ∈ e.2.ledger, x.2.Finite := by
  simp only [snapshot, Json.Held.Finite, Json.Held.finiteItems_iff, mem_ordered, entry_finite]

/-- The snapshot restores the sagas when the reader takes its text and no saga changes its
meaning on the way. -/
theorem restores_read (escapes : Char → Bool) (sagas : AList fun _ : SagaKey => HeldSaga) :
    Restores escapes (live sagas) ↔ (snapshot sagas).depth ≤ maxDepth ∧
      (snapshot sagas).Finite ∧ ∀ e ∈ sagas.entries, meaningOf e.2.again = meaningOf e.2.inst := by
  have same : (∀ key, ((sagas.lookup key).map HeldSaga.again).map meaningOf =
      ((sagas.lookup key).map HeldSaga.inst).map meaningOf) ↔
        ∀ e ∈ sagas.entries, meaningOf e.2.again = meaningOf e.2.inst := by
    constructor
    · intro all e mem
      have alike := all e.1
      rw [AList.mem_lookup_iff.mpr mem] at alike
      exact Option.some.inj alike
    · intro all key
      cases look : sagas.lookup key with
      | none => rfl
      | some saga => exact congrArg some (all ⟨key, saga⟩ (AList.mem_lookup_iff.mp look))
  rw [← same]
  unfold Restores
  simp only [← snapshot_json, Json.Held.parse_eq_ok, lookup_live]
  constructor
  · rintro ⟨parsed, ⟨shallow, finite, rfl⟩, same⟩
    simp only [lookup_seeded] at same
    exact ⟨shallow, finite, same⟩
  · rintro ⟨shallow, finite, same⟩
    refine ⟨_, ⟨shallow, finite, rfl⟩, ?_⟩
    simpa only [lookup_seeded] using same

/-- Every saga is restored exactly when what each holds is carried by its text. -/
theorem restores_iff (escapes : Char → Bool) (sagas : AList fun _ : SagaKey => HeldSaga) :
    Restores escapes (live sagas) ↔ ∀ e ∈ sagas.entries, e.2.Carried := by
  rw [restores_read, snapshot_depth, snapshot_finite]
  simp only [meaningOf_again]
  constructor
  · rintro ⟨shallow, finite, survives⟩ e mem
    constructor
    · exact ⟨(shallow e mem).1, (finite e mem).1, (survives e mem).1⟩
    · intro x recorded
      exact ⟨(shallow e mem).2 x recorded, (finite e mem).2 x recorded,
        (survives e mem).2 x recorded⟩
  · intro all
    refine ⟨?_, ?_, ?_⟩
    · intro e mem
      exact ⟨(all e mem).memory.shallow, fun x h => ((all e mem).ledger x h).shallow⟩
    · intro e mem
      exact ⟨(all e mem).memory.finite, fun x h => ((all e mem).ledger x h).finite⟩
    · intro e mem
      exact ⟨(all e mem).memory.survives, fun x h => ((all e mem).ledger x h).survives⟩

/-- A declared float of five comes back as the integer. -/
theorem whole_float_not_restored :
    ¬ Restores (fun _ => false) (live (AList.singleton ("CardHold", "card-1")
      ⟨"held", .object [("amount", .float (Float.Model.ofInt64 5))], []⟩)) := by
  intro restores
  obtain ⟨-, -, same⟩ := (restores_read _ _).mp restores
  have survives := ((meaningOf_again _).mp (same _ List.mem_cons_self)).1
  have changed : Json.integralI64 (Float.Model.ofInt64 5) ≠ none := by decide
  exact changed survives.1

end Cli

end Hecks
