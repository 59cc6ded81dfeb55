import Hecks.Host.Serde

/-! The in-memory store: what a unit loads and what its commit writes. -/
namespace Hecks.Host

/-- One journal row: the ordinal the store assigned and the step it replays. -/
structure Row where
  ordinal : Int
  step : Serde

/-- The kernel's cached instances as of `ordinal`. -/
structure Snapshot where
  ordinal : Int
  seed : Serde
  sagasBackfilled : Bool

/-- One live saga, as stored. -/
structure SagaRow where
  processManager : String
  correlation : String
  state : String
  memory : Serde
  completedCompensations : Serde

def SagaRow.key (row : SagaRow) : String × String := (row.processManager, row.correlation)

/-- A delivery that exhausted its retries. -/
structure DeadLetter where
  policy : String
  targetDomain : String
  targetVerb : String
  payload : Serde
  error : String
  attempts : Nat

/-- Everything committed so far; a map is what it holds under each key. -/
structure Data where
  journal : List Row
  snapshot : Option Snapshot
  sagas : String × String → Option SagaRow
  deadLetters : List DeadLetter
  heads : String × String → String → Option Serde

/-- Where a commit is made to fail. -/
inductive Fault where
  | snapshot
  | afterSagas
deriving DecidableEq

inductive StoreError where
  | notProvisioned (message : String)
  | unsupported (what : String)
  | backend (message : String)

structure LineageConfig where
  domain : String
  era : Option Int

structure HeadMutation where
  aggregate : String
  id : String
  operation : String
  state : Serde

structure LineageWrite where
  config : LineageConfig
  mutations : List HeadMutation

/-- The accepted command a unit persists, with everything the kernel said to persist with it. -/
structure Accepted where
  verb : String
  args : Serde
  newSeed : Serde
  sagaUpserts : List SagaRow
  sagaDeletes : List (String × String)
  lineage : Option LineageWrite

/-- Writes to the committed data: what a refused write did before it was refused stays. -/
abbrev Write := EStateM StoreError Data Unit

def Data.nextOrdinal (data : Data) : Int :=
  match data.journal.getLast? with
  | some row => row.ordinal + 1
  | none => 1

section

-- `snake` is the naming the two runtimes share, `escapes` the Unicode tables of `Debug`
variable (escapes : Char → Bool) (snake : String → String)

def storageName (qualifiedAggregate : String) : String :=
  snake (Text.lastSegment "::" qualifiedAggregate)

def Data.putHead (config : LineageConfig) (data : Data) (mutation : HeadMutation) : Data :=
  { data with
    heads := fun place id =>
      if place = (config.domain, storageName snake mutation.aggregate) ∧ id = mutation.id then
        some mutation.state
      else data.heads place id }

/-- Checks every mutation, then applies them all. -/
def applyHeads (config : LineageConfig) (mutations : List HeadMutation) : Write :=
  if config.era.isNone ∧ mutations ≠ [] then
    throw (.backend ("cannot append a lineage mutation for " ++ config.domain ++
      ": no era is active"))
  else
    match mutations.find? fun m => m.operation ≠ "save" with
    | some bad =>
        throw (.backend ("unsupported operation " ++ Text.debugStr escapes bad.operation ++
          ": only \"save\" is generated today"))
    | none => modify fun data => mutations.foldl (Data.putHead snake config) data

def failsAt (armed : Option Fault) (point : Fault) : Write :=
  if armed = some point then throw (.backend "injected write failure") else pure ()

def Data.upsert (data : Data) (saga : SagaRow) : Data :=
  { data with sagas := fun key => if key = saga.key then some saga else data.sagas key }

def Data.delete (data : Data) (ended : String × String) : Data :=
  { data with sagas := fun key => if key = ended then none else data.sagas key }

/-- The step a journal row replays. -/
def Accepted.step (accepted : Accepted) : Serde :=
  .object [("verb", .string accepted.verb), ("args", accepted.args)]

/-- `MemoryUnit::commit`. -/
def commit (armed : Option Fault) (accepted : Accepted) : Write := do
  let ordinal := (← get).nextOrdinal
  let row : Row := ⟨ordinal, accepted.step⟩
  failsAt armed .snapshot
  let snapshot : Snapshot := ⟨ordinal, accepted.newSeed, true⟩
  failsAt armed .afterSagas
  modify fun data => { data with journal := data.journal ++ [row] }
  modify fun data => { data with snapshot := some snapshot }
  modify fun data => accepted.sagaUpserts.foldl Data.upsert data
  modify fun data => accepted.sagaDeletes.foldl Data.delete data
  match accepted.lineage with
  | some lineage => applyHeads escapes snake lineage.config lineage.mutations
  | none => pure ()

end

/-! ### What a commit is for -/

section

variable (snake : String → String)

/-- The head rows a step's mutations leave. -/
def LineageWrite.heads (lineage : LineageWrite) (before : String × String → String → Option Serde)
    (place : String × String) (id : String) : Option Serde :=
  ((lineage.mutations.reverse.find? fun m =>
    place = (lineage.config.domain, storageName snake m.aggregate) ∧ id = m.id).map
      (·.state)).or (before place id)

/-- The command and everything with it is in the data, and nothing else changed. -/
structure Persisted (accepted : Accepted) (before after : Data) : Prop where
  journal : after.journal = before.journal ++ [⟨before.nextOrdinal, accepted.step⟩]
  snapshot : after.snapshot = some ⟨before.nextOrdinal, accepted.newSeed, true⟩
  deleted : ∀ key ∈ accepted.sagaDeletes, after.sagas key = none
  upserted : ∀ key ∉ accepted.sagaDeletes, after.sagas key =
    (accepted.sagaUpserts.reverse.find? fun saga => key = saga.key).or (before.sagas key)
  heads : ∀ lineage, accepted.lineage = some lineage →
    after.heads = lineage.heads snake before.heads
  noHeads : accepted.lineage = none → after.heads = before.heads
  deadLetters : after.deadLetters = before.deadLetters

/-- A commit that returns `Err` leaves the data as it was, and one that returns `Ok` has
persisted the command. -/
structure AllOrNothing (escapes : Char → Bool) (armed : Option Fault) (accepted : Accepted)
    (before : Data) : Prop where
  refused : ∀ e after, commit escapes snake armed accepted before = .error e after → after = before
  persisted : ∀ after, commit escapes snake armed accepted before = .ok () after →
    Persisted snake accepted before after

end

/-- The heads take the lineage mutations: an era is active and every operation is a save. -/
def LineageWrite.Taken (lineage : LineageWrite) : Prop :=
  (lineage.config.era.isSome ∨ lineage.mutations = []) ∧
    ∀ m ∈ lineage.mutations, m.operation = "save"

section

variable {escapes : Char → Bool} {snake : String → String} {accepted : Accepted} {before : Data}

theorem foldl_upsert (sagas : List SagaRow) (data : Data) :
    sagas.foldl Data.upsert data =
      { data with
        sagas := fun key =>
          (sagas.reverse.find? fun saga => key = saga.key).or (data.sagas key) } := by
  induction sagas generalizing data with
  | nil => rfl
  | cons saga sagas ih =>
    rw [List.foldl_cons, ih, Data.upsert]
    congr 1
    funext key
    rw [List.reverse_cons, List.find?_append]
    by_cases here : key = saga.key <;> simp [here]

theorem foldl_delete (keys : List (String × String)) (data : Data) :
    keys.foldl Data.delete data =
      { data with sagas := fun key => if keys.contains key then none else data.sagas key } := by
  induction keys generalizing data with
  | nil => simp
  | cons ended keys ih =>
    rw [List.foldl_cons, ih, Data.delete]
    congr 1
    funext key
    by_cases here : key = ended <;> by_cases later : key ∈ keys <;> simp [here, later]

theorem foldl_putHead (config : LineageConfig) (mutations : List HeadMutation) (data : Data) :
    mutations.foldl (Data.putHead snake config) data =
      { data with
        heads := (LineageWrite.mk config mutations).heads snake data.heads } := by
  induction mutations generalizing data with
  | nil => rfl
  | cons mutation mutations ih =>
    rw [List.foldl_cons, ih, Data.putHead]
    congr 1
    funext place id
    rw [LineageWrite.heads, LineageWrite.heads, List.reverse_cons, List.find?_append]
    by_cases here : place = (config.domain, storageName snake mutation.aggregate) ∧ id = mutation.id
    · simp only [here, and_self, if_true, List.find?_cons, decide_true, Option.map_or]
      cases List.find? _ mutations.reverse <;> rfl
    · simp only [here, if_false, List.find?_cons, decide_false, List.find?_nil, Option.or_none]

/-- The data once the journal row, the snapshot and the sagas are written. -/
def sagasWritten (accepted : Accepted) (before : Data) : Data :=
  { before with
    journal := before.journal ++ [⟨before.nextOrdinal, accepted.step⟩]
    snapshot := some ⟨before.nextOrdinal, accepted.newSeed, true⟩
    sagas := fun key =>
      if accepted.sagaDeletes.contains key then none
      else (accepted.sagaUpserts.reverse.find? fun saga => key = saga.key).or (before.sagas key) }

theorem commit_armed {armed : Fault} :
    ∃ e, commit escapes snake (some armed) accepted before = .error e before := by
  cases armed <;> exact ⟨_, rfl⟩

/-- With nothing armed, the first four writes are made whatever the lineage write comes to. -/
theorem commit_unarmed :
    commit escapes snake none accepted before =
      (match accepted.lineage with
        | some lineage => applyHeads escapes snake lineage.config lineage.mutations
        | none => pure ()) (sagasWritten accepted before) := by
  have written : accepted.sagaDeletes.foldl Data.delete
      (accepted.sagaUpserts.foldl Data.upsert
        { before with
          journal := before.journal ++ [⟨before.nextOrdinal, accepted.step⟩]
          snapshot := some ⟨before.nextOrdinal, accepted.newSeed, true⟩ }) =
        sagasWritten accepted before := by
    rw [foldl_upsert, foldl_delete]
    rfl
  rw [← written]
  rfl

theorem applyHeads_taken {lineage : LineageWrite} (taken : lineage.Taken) (data : Data) :
    applyHeads escapes snake lineage.config lineage.mutations data =
      .ok () { data with heads := lineage.heads snake data.heads } := by
  obtain ⟨era, saves⟩ := taken
  have open' : ¬ (lineage.config.era.isNone ∧ lineage.mutations ≠ []) := by
    rintro ⟨closed, some⟩
    rcases era with era | none
    · simp [Option.isNone_iff_eq_none.mp closed] at era
    · exact some none
  have good : lineage.mutations.find? (fun m => m.operation ≠ "save") = none := by
    rw [List.find?_eq_none]
    intro m mem
    simpa using saves m mem
  unfold applyHeads
  rw [if_neg open', good]
  show EStateM.Result.ok () (lineage.mutations.foldl (Data.putHead snake lineage.config) data) = _
  rw [foldl_putHead]

theorem applyHeads_refused {lineage : LineageWrite} (refused : ¬ lineage.Taken) (data : Data) :
    ∃ e, applyHeads escapes snake lineage.config lineage.mutations data = .error e data := by
  unfold applyHeads
  by_cases closed : lineage.config.era.isNone ∧ lineage.mutations ≠ []
  · rw [if_pos closed]
    exact ⟨_, rfl⟩
  · rw [if_neg closed]
    cases found : lineage.mutations.find? fun m => m.operation ≠ "save" with
    | some bad => exact ⟨_, rfl⟩
    | none =>
      refine absurd ⟨?_, ?_⟩ refused
      · by_contra neither
        rw [not_or] at neither
        exact closed ⟨by simpa using neither.1, neither.2⟩
      · intro m mem
        simpa using List.find?_eq_none.mp found m mem

/-- The journal grew, so the data is not as it was. -/
theorem sagasWritten_ne : sagasWritten accepted before ≠ before := by
  intro same
  have longer := congrArg (·.journal.length) same
  simp [sagasWritten] at longer

/-- A commit is all or nothing exactly when it fails before it writes, or the heads take the
lineage mutations. -/
theorem commit_all_or_nothing_iff (armed : Option Fault) (accepted : Accepted) (before : Data) :
    AllOrNothing snake escapes armed accepted before ↔
      armed ≠ none ∨ ∀ lineage, accepted.lineage = some lineage → lineage.Taken := by
  constructor
  · intro all
    cases armed with
    | some fault => exact .inl (by simp)
    | none =>
      right
      intro lineage given
      by_contra refused
      obtain ⟨e, failed⟩ := @applyHeads_refused escapes snake lineage refused
        (sagasWritten accepted before)
      have left := all.refused e (sagasWritten accepted before) (by
        rw [commit_unarmed, given]
        exact failed)
      exact sagasWritten_ne left
  · intro condition
    cases armed with
    | some fault =>
      obtain ⟨e, failed⟩ := @commit_armed escapes snake accepted before fault
      refine ⟨?_, ?_⟩
      · intro e' after commit
        rw [failed] at commit
        cases commit
        rfl
      · intro after commit
        rw [failed] at commit
        cases commit
    | none =>
      have taken : ∀ lineage, accepted.lineage = some lineage → lineage.Taken := by
        rcases condition with armed | taken
        · exact absurd rfl armed
        · exact taken
      cases given : accepted.lineage with
      | none =>
        have ok : commit escapes snake none accepted before =
            .ok () (sagasWritten accepted before) := by
          rw [commit_unarmed, given]
          rfl
        refine ⟨fun e after commit => ?_, fun after commit => ?_⟩
        · rw [ok] at commit
          cases commit
        · rw [ok] at commit
          cases commit
          refine ⟨rfl, rfl, fun key mem => if_pos (List.contains_iff_mem.mpr mem),
            fun key off => if_neg (mt List.contains_iff_mem.mp off), ?_, fun _ => rfl, rfl⟩
          intro lineage some
          rw [given] at some
          cases some
      | some lineage =>
        have ok : commit escapes snake none accepted before =
            .ok () { sagasWritten accepted before with
              heads := lineage.heads snake before.heads } := by
          rw [commit_unarmed, given]
          exact applyHeads_taken (taken lineage given) _
        refine ⟨fun e after commit => ?_, fun after commit => ?_⟩
        · rw [ok] at commit
          cases commit
        · rw [ok] at commit
          cases commit
          refine ⟨rfl, rfl, fun key mem => if_pos (List.contains_iff_mem.mpr mem),
            fun key off => if_neg (mt List.contains_iff_mem.mp off), ?_, ?_, rfl⟩
          · intro lineage' some
            rw [given] at some
            cases some
            rfl
          · intro none
            rw [given] at none
            cases none

end

/-- An accepted command whose lineage mutation is a delete. -/
def withDelete : Accepted where
  verb := "Shop::Order.Close"
  args := .object []
  newSeed := .object []
  sagaUpserts := []
  sagaDeletes := []
  lineage := some ⟨⟨"Shop", some 1⟩, [⟨"Shop::Order", "o1", "delete", .object []⟩]⟩

def emptyStore : Data := ⟨[], none, fun _ => none, [], fun _ _ => none⟩

/-- The delete is refused, and the journal row stays behind. -/
theorem refused_delete_leaves_row :
    ¬ AllOrNothing id (fun _ => false) none withDelete emptyStore := by
  intro all
  have left := all.refused _ _ (show commit (fun _ => false) id none withDelete emptyStore =
    .error (.backend "unsupported operation \"delete\": only \"save\" is generated today")
      (sagasWritten withDelete emptyStore) from rfl)
  exact sagasWritten_ne left

/-! ### A store's writes, some of which fail -/

instance (lineage : LineageWrite) : Decidable lineage.Taken :=
  inferInstanceAs (Decidable ((_ ∨ _) ∧ _))

/-- The data when one write is over, whether it was answered or failed. -/
def afterWrite (escapes : Char → Bool) (snake : String → String) (data : Data)
    (write : Option Fault × Accepted) : Data :=
  match commit escapes snake write.1 write.2 data with
  | .ok _ after | .error _ after => after

/-- The command of a write that was not stopped before it wrote. -/
def begun (write : Option Fault × Accepted) : Option Accepted :=
  if write.1.isNone then some write.2 else none

def Accepted.sagasAfter (accepted : Accepted) (sagas : String × String → Option SagaRow)
    (key : String × String) : Option SagaRow :=
  if accepted.sagaDeletes.contains key then none
  else (accepted.sagaUpserts.reverse.find? fun saga => key = saga.key).or (sagas key)

def Accepted.headsAfter (snake : String → String) (accepted : Accepted)
    (heads : String × String → String → Option Serde) : String × String → String → Option Serde :=
  match accepted.lineage with
  | some lineage => if lineage.Taken then lineage.heads snake heads else heads
  | none => heads

/-- The data is what these commands make of an empty store, one after the other. -/
structure Holds (snake : String → String) (commands : List Accepted) (data : Data) : Prop where
  journal : data.journal = commands.mapIdx fun place a => ⟨place + 1, a.step⟩
  snapshot : data.snapshot = commands.getLast?.map fun a => ⟨commands.length, a.newSeed, true⟩
  sagas : data.sagas = commands.foldl (fun sagas a => a.sagasAfter sagas) fun _ => none
  heads : data.heads = commands.foldl (fun heads a => a.headsAfter snake heads) fun _ _ => none
  deadLetters : data.deadLetters = []

section

variable {escapes : Char → Bool} {snake : String → String}

theorem afterWrite_armed (data : Data) (fault : Fault) (accepted : Accepted) :
    afterWrite escapes snake data (some fault, accepted) = data := by
  obtain ⟨e, failed⟩ := @commit_armed escapes snake accepted data fault
  rw [afterWrite, failed]

/-- The heads alone depend on whether the lineage was refused. -/
theorem afterWrite_unarmed (data : Data) (accepted : Accepted) :
    afterWrite escapes snake data (none, accepted) =
      { sagasWritten accepted data with heads := accepted.headsAfter snake data.heads } := by
  rw [afterWrite, commit_unarmed, Accepted.headsAfter]
  cases accepted.lineage with
  | none => rfl
  | some lineage =>
    dsimp only
    by_cases taken : lineage.Taken
    · rw [applyHeads_taken taken, if_pos taken]
      rfl
    · obtain ⟨e, failed⟩ := @applyHeads_refused escapes snake lineage taken
        (sagasWritten accepted data)
      rw [failed, if_neg taken]
      rfl

theorem Holds.nextOrdinal {commands : List Accepted} {data : Data}
    (holds : Holds snake commands data) : data.nextOrdinal = commands.length + 1 := by
  rw [Data.nextOrdinal, holds.journal]
  induction commands using List.reverseRecOn with
  | nil => rfl
  | append_singleton commands a _ =>
    rw [List.mapIdx_concat, List.getLast?_concat, List.length_append]
    rfl

theorem Holds.write {commands : List Accepted} {data : Data} (holds : Holds snake commands data)
    (accepted : Accepted) :
    Holds snake (commands ++ [accepted]) (afterWrite escapes snake data (none, accepted)) := by
  have next := holds.nextOrdinal
  rw [afterWrite_unarmed]
  refine ⟨?_, ?_, ?_, ?_, holds.deadLetters⟩
  · show data.journal ++ [⟨data.nextOrdinal, accepted.step⟩] = _
    rw [List.mapIdx_concat, holds.journal, next]
  · show some (⟨data.nextOrdinal, accepted.newSeed, true⟩ : Snapshot) = _
    rw [List.getLast?_concat, next, List.length_append]
    rfl
  · rw [List.foldl_append, ← holds.sagas]
    rfl
  · rw [List.foldl_append, ← holds.heads]
    rfl

end

/-- Whatever fails on the way, the store holds what the commands that began to write make of an
empty one, in their order: their rows under the ordinals from one on, the last one's snapshot, their
sagas, and the heads of those whose lineage was taken. -/
theorem writes_hold (escapes : Char → Bool) (snake : String → String)
    (writes : List (Option Fault × Accepted)) :
    Holds snake (writes.filterMap begun) (writes.foldl (afterWrite escapes snake) emptyStore) := by
  induction writes using List.reverseRecOn with
  | nil => exact ⟨rfl, rfl, rfl, rfl, rfl⟩
  | append_singleton writes write ih =>
    obtain ⟨armed, accepted⟩ := write
    rw [List.foldl_append, List.filterMap_append]
    cases armed with
    | none => exact ih.write accepted
    | some fault =>
      show Holds snake (writes.filterMap begun ++ [])
        (afterWrite escapes snake _ (some fault, accepted))
      rw [afterWrite_armed, List.append_nil]
      exact ih

end Hecks.Host
