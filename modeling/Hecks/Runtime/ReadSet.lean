import Hecks.Lib.Lockstep
import Hecks.Runtime.LostUpdate

/-! Whether a plan's read set holds all a command depends on: what two records that agree on it make
of the same arguments. -/
namespace Hecks.Runtime

section

variable {ω V : Type}

/-- The two records hold the same under each of these names. -/
def SameOn (names : List String) (pre pre' : Fields V) : Prop := ∀ name ∈ names, pre name = pre' name

/-- What an appended element takes by name: an argument wins over the record's field. The rest of
an append's source is taken as it stands. -/
def resolveAppendSource (pre args : Fields V) : Source ω V → Option V
  | .stateRef name => pre name
  | .symbol name => (args name).or (pre name)
  | _ => none

/-- What a list or number mutation works with beside the target's value. -/
def operands (m : Mutation ω V) (pre args : Fields V) : List (Option V) :=
  match m.op, m.source with
  | .append, .bindings fields => fields.map fun (_, source) => resolveAppendSource pre args source
  | .append, _ => []
  | _, .symbol name => [args name]
  | _, _ => []

/-- Surroundings with the fields of the record each part of them reads. -/
structure Located (ω V : Type) extends Surroundings ω V where
  /-- A record's fields are read as a `Hash`: nil where it holds none of the name. -/
  walkPath_hash : ∀ fields name rest,
    walkPath (hash fields) (name :: rest) = walkPath ((fields name).getD nil) rest
  work : Mutation ω V → Option V → List (Option V) → Except String V
  worked_eq : ∀ m pre args, worked m pre args = work m (pre m.target) (operands m pre args)
  /-- The entity lists whose elements are held to invariants, and what these name of the parent. -/
  entityReads : List String
  entities : List (Option V) → Except String Unit
  checkEntityInvariants_eq : ∀ state, checkEntityInvariants state = entities (entityReads.map state)
  /-- The references, the lists of entities that hold some, and the tenant's field. -/
  referenceReads : List String
  references : List (Option V) → Except String Unit
  resolveStateReferences_eq : ∀ state,
    resolveStateReferences state = references (referenceReads.map state)
  remote : ProjectedField → Option V → Option V
  remoteValue_eq : ∀ state field, remoteValue state field = remote field (state field.reference)

variable (o : Surroundings ω V) (a : Aggregate ω V) (c : Command ω V)

/-! ### The reads no rule of the analysis counts -/

/-- A `state(:field)`, and a payload's name that the arguments leave to the record. -/
def bindingReads (args : Fields V) : Source ω V → List String
  | .stateRef name => [name]
  | .symbol name => if c.payloadFields.contains name && (args name).isNone then [name] else []
  | _ => []

def appendReads (args : Fields V) : Source ω V → List String
  | .bindings fields => fields.flatMap fun (_, source) => bindingReads c args source
  | _ => []

def uncountedSource (args : Fields V) (m : Mutation ω V) : List String :=
  if m.op = .set then sourceReads args m.source
  else if m.op = .append then appendReads c args m.source
  else []

/-- A payload's name is an argument's to the analysis. Where the arguments lack it, the record's
field of that name is read. -/
def uncountedGivens (args : Fields V) : List String :=
  (ruleHeads c.givens).filter fun name =>
    (c.payloadFields.contains name || name == "old") &&
      (merge args (o.dereference c args) name).isNone

/-- A field a fresh record supplies is known to the analysis, whatever the stored one holds. -/
def uncountedAfter (name : String) : Bool :=
  c.payloadFields.contains name || (analyzeEffects a c).knownWrites.contains name

def uncountedEnsures (args : Fields V) : List String :=
  (ruleHeads c.ensures).filter fun name =>
    uncountedAfter a c name && name != "parent" && name != "old" &&
      (o.dereference c args name).isNone

def uncountedInvariants : List String :=
  (ruleHeads a.invariants).filter fun name =>
    uncountedAfter a c name || name == "parent" || name == "old"

/-- What the projected fields among `names` are copied by, the last one copied first. -/
def seededBy (names : List String) : List ProjectedField → List String
  | [] => names
  | field :: fields =>
      let later := seededBy names fields
      if later.contains field.name then field.reference :: later else later

end

section

variable {ω V : Type} (o : Located ω V) (a : Aggregate ω V) (c : Command ω V)

/-- The settled record's fields that are read of it and not counted. -/
def uncountedSettled (args : Fields V) : List String :=
  uncountedEnsures o.toSurroundings a c args ++ uncountedInvariants a c ++ o.entityReads ++
    o.referenceReads ++ seededBy (setFields a c) a.projectedFields

/-- The fields of the prior record a command reads and its plan does not count as read. -/
def uncounted (args : Fields V) : List String :=
  c.mutations.flatMap (uncountedSource c args) ++ lifecycleReads a c ++
    uncountedGivens o.toSurroundings c args ++
    (uncountedSettled o a c args).filter fun name => !(setFields a c).contains name

/-- Refused on both, or accepted on both with the same values in these fields. -/
def SameOutcome (fields : List String) :
    Except Refusal (Saved V) → Except Refusal (Saved V) → Prop :=
  TwoRuns.Related fun saved saved' => SameOn fields saved.state saved'.state

/-- Any two records that agree on the read set have the same outcome on the write set. -/
def ReadSetComplete (plan : Plan) : Prop :=
  ∀ given history pre pre', SameOn plan.readSet pre pre' →
    SameOutcome plan.writeSet (dispatchOnce o.toSurroundings a c given ⟨some pre, history⟩)
      (dispatchOnce o.toSurroundings a c given ⟨some pre', history⟩)

end

/-! ### What a plan with nothing left open has counted -/

section

variable {ω V : Type} {a : Aggregate ω V} {c : Command ω V}

@[simp] theorem append_writes (x y : Found) : (x ++ y).writes = x.writes ++ y.writes := rfl

/-- Nothing left open, and all it reads of the record among these names. -/
def Found.Within (reads : List String) (found : Found) : Prop :=
  found.stateReads ⊆ reads ∧ found.unresolved = []

theorem within_append {reads : List String} {x y : Found} :
    (x ++ y).Within reads ↔ x.Within reads ∧ y.Within reads := by
  simp only [Found.Within, append_stateReads, append_unresolved, List.append_eq_nil_iff,
    List.append_subset]
  tauto

theorem within_all {reads : List String} {stages : List Found} :
    (Found.all stages).Within reads ↔ ∀ x ∈ stages, x.Within reads := by
  induction stages with
  | nil => simp [Found.all, Found.Within]
  | cons x stages ih =>
    have cons : Found.all (x :: stages) = x ++ Found.all stages := rfl
    rw [cons, within_append, ih, List.forall_mem_cons]

/-- Each path of these rules has its place in the analysis, and reads no other field. -/
def PathsWithin (a : Aggregate ω V) (c : Command ω V) (phase : RulePhase) (reads : List String)
    (rules : List (Rule ω)) : Prop :=
  ∀ rule ∈ rules, ∀ node, rule.node = .ok node → ∀ path ∈ paths node,
    ∃ found, classifyPath a c (analyzeEffects a c).knownWrites phase path = some found ∧
      found.Within reads

theorem pathsWithin_of_rules {phase : RulePhase} {reads : List String} {rules : List (Rule ω)}
    {found : Found}
    (analyzed : analyzeRules a c (analyzeEffects a c).knownWrites phase rules = some found)
    (within : found.Within reads) : PathsWithin a c phase reads rules := by
  obtain ⟨stages, ruled, rfl⟩ := Option.map_eq_some_iff.mp analyzed
  intro rule mem node parsed path read
  obtain ⟨stage, inside, one⟩ := (Reading.mapM_some ruled).1 rule mem
  unfold analyzeRule at one
  rw [parsed] at one
  obtain ⟨pieces, classified, rfl⟩ := Option.map_eq_some_iff.mp one
  obtain ⟨piece, among, this⟩ := (Reading.mapM_some classified).1 path read
  have whole := within_all.mp within _ inside
  exact ⟨piece, this, within_all.mp whole piece among⟩

/-- A path's first step into the parent or the prior state. -/
theorem within_of_nested {path : Path} {fields reads : List String} {message : String}
    {found : Found} (resolved : resolveNestedStateRead path fields message = some found)
    (within : found.Within reads) : ∃ field rest, path.rest = field :: rest ∧ field ∈ reads := by
  unfold resolveNestedStateRead at resolved
  split at resolved
  · cases resolved
  · cases resolved
  · rename_i field rest other same
    refine ⟨field, rest, same, ?_⟩
    split at resolved
    · cases resolved
      cases within.2
    · cases resolved
      exact within.1 List.mem_cons_self

/-- A path that names neither the parent nor the prior state is an argument's, or counted, or a
settled field's that the analysis takes to be known. -/
theorem within_of_named {known reads : List String} {phase : RulePhase} {path : Path}
    (within : (classifyNamedPath a c known phase path).Within reads) :
    c.payloadFields.contains path.head = true ∨ path.head ∈ reads ∨
      (phase = .after ∧ known.contains path.head = true) := by
  unfold classifyNamedPath at within
  by_cases payload : c.payloadFields.contains path.head = true
  · exact Or.inl payload
  · right
    rw [if_neg payload] at within
    by_cases owned : a.ownerFields.contains path.head = true
    · rw [if_pos owned] at within
      by_cases counted : (decide (phase = .before) || !known.contains path.head) = true
      · rw [if_pos counted] at within
        exact Or.inl (within.1 List.mem_cons_self)
      · right
        simp only [Bool.or_eq_true, decide_eq_true_eq, Bool.not_eq_true', not_or] at counted
        constructor
        · cases phase with
          | before => exact absurd rfl counted.1
          | after => rfl
        · simpa using counted.2
    · rw [if_neg owned] at within
      cases within.2

/-- What a plan without an unresolved dependency shows. -/
structure Counted (a : Aggregate ω V) (c : Command ω V) (plan : Plan) : Prop where
  mutations : ∀ m ∈ c.mutations, (analyzeMutation a c m).Within plan.readSet
  lifecycle : (analyzeLifecycle a c).Within plan.readSet
  givens : PathsWithin a c .before plan.readSet c.givens
  ensures : PathsWithin a c .after plan.readSet c.ensures
  invariants : PathsWithin a c .after plan.readSet a.invariants
  writes : plan.writeSet ⊆ setFields a c

theorem mem_sorted {name : String} {names : List String} :
    name ∈ sorted names ↔ name ∈ names := by
  rw [sorted, List.mem_mergeSort, List.mem_dedup]

theorem within_of_resolved {found : Found}
    (resolved : (buildPlan a found).unresolvedDependencies = []) :
    found.Within (buildPlan a found).readSet := by
  constructor
  · intro name mem
    exact mem_sorted.mpr (List.mem_append_left _ mem)
  · apply List.eq_nil_iff_forall_not_mem.mpr
    intro text mem
    have listed : text ∈ (buildPlan a found).unresolvedDependencies := mem_sorted.mpr mem
    rw [resolved] at listed
    exact List.not_mem_nil listed

theorem writes_all {stages : List Found} (none : ∀ x ∈ stages, x.writes = []) :
    (Found.all stages).writes = [] := by
  induction stages with
  | nil => rfl
  | cons x stages ih =>
    have cons : Found.all (x :: stages) = x ++ Found.all stages := rfl
    rw [cons, append_writes, none x List.mem_cons_self,
      ih fun y mem => none y (List.mem_cons_of_mem x mem), List.append_nil]

theorem writes_of_classified {known : List String} {phase : RulePhase} {path : Path}
    {found : Found} (classified : classifyPath a c known phase path = some found) :
    found.writes = [] := by
  have nested : ∀ fields message,
      resolveNestedStateRead path fields message = some found → found.writes = [] := by
    intro fields message resolved
    unfold resolveNestedStateRead at resolved
    split at resolved
    · cases resolved
    · cases resolved
    · split at resolved <;> cases resolved <;> rfl
  unfold classifyPath at classified
  split at classified
  · exact nested _ _ classified
  · split at classified
    · exact nested _ _ classified
    · cases classified
      unfold classifyNamedPath
      split
      · rfl
      · split <;> rfl

theorem writes_of_rules {known : List String} {phase : RulePhase} {rules : List (Rule ω)}
    {found : Found} (analyzed : analyzeRules a c known phase rules = some found) :
    found.writes = [] := by
  obtain ⟨stages, ruled, rfl⟩ := Option.map_eq_some_iff.mp analyzed
  apply writes_all
  intro stage mem
  obtain ⟨rule, -, one⟩ := (Reading.mapM_some ruled).2 stage mem
  unfold analyzeRule at one
  split at one
  · obtain ⟨pieces, classified, rfl⟩ := Option.map_eq_some_iff.mp one
    apply writes_all
    intro piece among
    obtain ⟨path, -, this⟩ := (Reading.mapM_some classified).2 piece among
    exact writes_of_classified this
  · cases one
    rfl

mutual

theorem writes_of_source : ∀ source : Source ω V, (analyzeSource a c source).1.writes = []
  | .symbol name => by
      unfold analyzeSource analyzeSymbolSource
      split
      · rfl
      · split <;> rfl
  | .bindings fields => writes_of_bindings fields
  | .stateRef _ => rfl
  | .computed _ => rfl
  | .literal _ => rfl

theorem writes_of_bindings :
    ∀ fields : List (String × Source ω V), (analyzeBindings a c fields).1.writes = []
  | [] => rfl
  | (_, source) :: fields => by
      simp only [analyzeBindings, append_writes, writes_of_source source,
        writes_of_bindings fields, List.append_nil]

end

theorem writes_of_mutation (m : Mutation ω V) : (analyzeMutation a c m).writes = [m.target] := by
  have operation : (analyzeOperation a c m).writes = [] := by
    unfold analyzeOperation
    split
    · rw [append_writes, writes_of_source]
      rfl
    · split
      · rw [append_writes, writes_of_source]
        rfl
      · rfl
  unfold analyzeMutation
  rw [append_writes]
  split
  · rw [operation]
    rfl
  · rfl

theorem writes_of_effects : (analyzeEffects a c).writes ⊆ setFields a c := by
  have mutations : (Found.all (c.mutations.map (analyzeMutation a c))).writes =
      c.mutations.map (·.target) := by
    induction c.mutations with
    | nil => rfl
    | cons m ms ih =>
      have cons : Found.all ((m :: ms).map (analyzeMutation a c)) =
          analyzeMutation a c m ++ Found.all (ms.map (analyzeMutation a c)) := rfl
      rw [cons, append_writes, writes_of_mutation, ih]
      rfl
  intro name mem
  rw [analyzeEffects, append_writes, append_writes, mutations] at mem
  unfold setFields
  apply List.mem_append.mpr
  cases List.mem_append.mp mem with
  | inl first =>
    cases List.mem_append.mp first with
    | inl initial => exact absurd initial List.not_mem_nil
    | inr target => exact Or.inl target
  | inr moved =>
    right
    unfold analyzeLifecycle at moved
    cases held : a.lifecycle with
    | none =>
      rw [held] at moved
      exact absurd moved List.not_mem_nil
    | some lifecycle =>
      simp only [held, append_writes, List.nil_append] at moved ⊢
      split at moved
      · exact absurd moved List.not_mem_nil
      · rename_i moves
        rw [if_neg moves]
        exact moved

theorem counted_of_analyze {plan : Plan} (planned : analyze a c = some plan)
    (resolved : plan.unresolvedDependencies = []) : Counted a c plan := by
  unfold analyze at planned
  simp only [Option.bind_eq_bind, Option.bind_eq_some_iff, Option.pure_def, Option.some.injEq]
    at planned
  obtain ⟨givens, before, ensures, after, invariants, settled, rfl⟩ := planned
  have within := within_of_resolved resolved
  rw [within_append, within_append, within_append] at within
  obtain ⟨⟨⟨effects, inGivens⟩, inEnsures⟩, inInvariants⟩ := within
  rw [analyzeEffects, within_append, within_append, within_all] at effects
  obtain ⟨⟨-, mutations⟩, lifecycle⟩ := effects
  constructor
  · intro m mem
    exact mutations _ (List.mem_map_of_mem mem)
  · exact lifecycle
  · exact pathsWithin_of_rules before inGivens
  · exact pathsWithin_of_rules after inEnsures
  · exact pathsWithin_of_rules settled inInvariants
  · intro name mem
    have written := mem_sorted.mp mem
    rw [append_writes, append_writes, append_writes, writes_of_rules before,
      writes_of_rules after, writes_of_rules settled, List.append_nil, List.append_nil,
      List.append_nil] at written
    exact writes_of_effects written

end

/-! ### Two records that agree on what is read -/

section

variable {ω V : Type} {o : Located ω V} {a : Aggregate ω V} {c : Command ω V} {plan : Plan}
  {args pre pre' post post' : Fields V} {name : String}

/-- The two records agree on the plan's read set, and on the fields that are read beside it. -/
def Close (o : Located ω V) (a : Aggregate ω V) (c : Command ω V) (plan : Plan)
    (args pre pre' : Fields V) : Prop :=
  SameOn (plan.readSet ++ uncounted o a c args) pre pre'

theorem Close.read (h : Close o a c plan args pre pre') (mem : name ∈ plan.readSet) :
    pre name = pre' name :=
  h name (List.mem_append_left _ mem)

theorem Close.source (h : Close o a c plan args pre pre') {m : Mutation ω V}
    (mem : m ∈ c.mutations) (read : name ∈ uncountedSource c args m) : pre name = pre' name := by
  apply h
  apply List.mem_append_right
  apply List.mem_append_left
  apply List.mem_append_left
  apply List.mem_append_left
  exact List.mem_flatMap.mpr ⟨m, mem, read⟩

theorem Close.moves (h : Close o a c plan args pre pre') (read : name ∈ lifecycleReads a c) :
    pre name = pre' name := by
  apply h
  apply List.mem_append_right
  apply List.mem_append_left
  apply List.mem_append_left
  exact List.mem_append_right _ read

theorem Close.given (h : Close o a c plan args pre pre')
    (read : name ∈ uncountedGivens o.toSurroundings c args) : pre name = pre' name := by
  apply h
  apply List.mem_append_right
  apply List.mem_append_left
  exact List.mem_append_right _ read

/-- What is read of the settled record was set, or agreed before. -/
theorem Close.settled (h : Close o a c plan args pre pre')
    (carried : Carried (setFields a c) pre pre' post post')
    (read : name ∈ uncountedSettled o a c args) : post name = post' name := by
  apply carried
  by_cases set : name ∈ setFields a c
  · exact Or.inl set
  · right
    apply h
    apply List.mem_append_right
    apply List.mem_append_right
    apply List.mem_filter.mpr
    exact ⟨read, by simpa using set⟩

/-! #### Mutations -/

theorem within_of_bindings {reads : List String} {fields : List (String × Source ω V)}
    (within : (analyzeBindings a c fields).1.Within reads) :
    ∀ field ∈ fields, (analyzeSource a c field.2).1.Within reads := by
  induction fields with
  | nil => exact fun _ mem => absurd mem List.not_mem_nil
  | cons field fields ih =>
    obtain ⟨head, rest⟩ := within_append.mp within
    exact List.forall_mem_cons.mpr ⟨head, ih rest⟩

/-- With nothing left open, a mutation is a set, or works on a target that is counted as read. -/
theorem within_of_mutation {reads : List String} {m : Mutation ω V}
    (within : (analyzeMutation a c m).Within reads) :
    m.op = .set ∨ (m.op.stateful = true ∧ m.target ∈ reads ∧
      (analyzeSource a c m.source).1.Within reads) := by
  unfold analyzeMutation at within
  have rest := (within_append.mp within).2
  by_cases owned : a.ownerFields.contains m.target = true
  · rw [if_pos owned] at rest
    unfold analyzeOperation at rest
    by_cases set : m.op = .set
    · exact Or.inl set
    · right
      rw [if_neg set] at rest
      by_cases stateful : m.op.stateful = true
      · rw [if_pos stateful] at rest
        obtain ⟨target, source⟩ := within_append.mp rest
        exact ⟨stateful, target.1 List.mem_cons_self, source⟩
      · rw [if_neg stateful] at rest
        cases rest.2
  · rw [if_neg owned] at rest
    cases rest.2

theorem resolveAppendSource_congr {source : Source ω V}
    (within : (analyzeSource a c source).1.Within plan.readSet)
    (counted : ∀ name ∈ plan.readSet, pre name = pre' name)
    (read : ∀ name ∈ bindingReads c args source, pre name = pre' name) :
    resolveAppendSource pre args source = resolveAppendSource pre' args source := by
  cases source with
  | stateRef name => exact read name List.mem_cons_self
  | symbol name =>
    cases held : args name with
    | some value => simp only [resolveAppendSource, held, Option.some_or]
    | none =>
      have same : pre name = pre' name := by
        unfold analyzeSource analyzeSymbolSource at within
        by_cases payload : c.payloadFields.contains name = true
        · apply read
          simp only [bindingReads, payload, held, Option.isNone_none, Bool.and_self, if_true]
          exact List.mem_cons_self
        · rw [if_neg payload] at within
          by_cases owned : a.ownerFields.contains name = true
          · rw [if_pos owned] at within
            exact counted name (within.1 List.mem_cons_self)
          · rw [if_neg owned] at within
            cases within.2
      simp only [resolveAppendSource, same]
  | bindings fields => rfl
  | computed text => rfl
  | literal value => rfl

theorem operands_congr (h : Close o a c plan args pre pre') {m : Mutation ω V}
    (mem : m ∈ c.mutations) (within : (analyzeSource a c m.source).1.Within plan.readSet) :
    operands m pre args = operands m pre' args := by
  by_cases append : m.op = .append
  · cases source : m.source with
    | bindings fields =>
      simp only [operands, append, source]
      rw [source] at within
      apply List.map_congr_left
      intro field inside
      apply resolveAppendSource_congr (within_of_bindings within field inside)
      · exact fun name read => h.read read
      · intro name read
        apply h.source mem
        simp only [uncountedSource, append, source, reduceCtorEq, if_false, if_true]
        exact List.mem_flatMap.mpr ⟨field, inside, read⟩
    | symbol name => simp only [operands, append, source]
    | stateRef name => simp only [operands, append, source]
    | computed text => simp only [operands, append, source]
    | literal value => simp only [operands, append, source]
  · unfold operands
    split
    · rename_i same _
      exact absurd same append
    · rfl
    · rfl
    · rfl

/-- Either record is given the same value. -/
theorem applyMutation_carried (h : Close o a c plan args pre pre') (counted : Counted a c plan)
    {m : Mutation ω V} (mem : m ∈ c.mutations) {written : List String}
    (carried : Carried written pre pre' post post') :
    TwoRuns.Related (Carried (written ++ [m.target]) pre pre')
      (applyMutation o.toSurroundings args pre post m)
      (applyMutation o.toSurroundings args pre' post' m) := by
  have writes : ∀ held, Carried (written ++ [m.target]) pre pre'
      (set post m.target held) (set post' m.target held) := by
    intro held field either
    by_cases target : field = m.target
    · rw [target, set_self, set_self]
    · rw [set_other _ _ target, set_other _ _ target]
      apply carried
      apply either.imp_left
      intro inside
      cases List.mem_append.mp inside with
      | inl earlier => exact earlier
      | inr last => exact absurd (List.mem_singleton.mp last) target
  cases within_of_mutation (counted.mutations m mem) with
  | inl set =>
    have sourced : setSourceValue o.toSurroundings args pre m.source =
        setSourceValue o.toSurroundings args pre' m.source := by
      apply setSourceValue_congr
      intro name read
      apply h.source mem
      rw [uncountedSource, if_pos set]
      exact read
    simp only [applyMutation, set, sourced]
    apply TwoRuns.Related.after
    intro value _
    apply TwoRuns.Related.after
    intro held _
    exact writes held
  | inr works =>
    obtain ⟨stateful, target, source⟩ := works
    have worked : o.worked m pre args = o.worked m pre' args := by
      rw [o.worked_eq, o.worked_eq, h.read target, operands_congr h mem source]
    unfold applyMutation
    split
    · rename_i set
      rw [set] at stateful
      cases stateful
    · rename_i delegate
      rw [delegate] at stateful
      cases stateful
    · rename_i corrects
      rw [corrects] at stateful
      cases stateful
    · rw [worked]
      apply TwoRuns.Related.after
      intro held _
      exact writes held

theorem applyAllMutations_carried (h : Close o a c plan args pre pre')
    (counted : Counted a c plan) :
    TwoRuns.Related (Carried (c.mutations.map (·.target)) pre pre')
      (applyAllMutations o.toSurroundings c args pre)
      (applyAllMutations o.toSurroundings c args pre') := by
  let settled := fun done : List (Mutation ω V) => Carried (done.map (·.target)) pre pre'
  apply TwoRuns.Related.foldlM (R := settled)
  · intro before m after whole state state' carried
    have mem : m ∈ c.mutations := by
      rw [whole]
      exact List.mem_append_right _ List.mem_cons_self
    have same : settled (before ++ [m]) =
        Carried (before.map (·.target) ++ [m.target]) pre pre' := by
      simp only [settled, List.map_append, List.map_singleton]
    rw [same]
    exact applyMutation_carried h counted mem carried
  · intro field either
    cases either with
    | inl none => exact absurd none List.not_mem_nil
    | inr same => exact same

end

/-! ### Rules -/

section

variable {ω V : Type} {o : Located ω V} {a : Aggregate ω V} {c : Command ω V} {plan : Plan}
  {args pre pre' post post' : Fields V}

theorem corrected_of_counted (counted : Counted a c plan) (history : List (Event V)) :
    enforceCorrectionTarget c history = .ok fun _ => none := by
  apply corrected_of_none
  intro m mem corrects
  cases within_of_mutation (counted.mutations m mem) with
  | inl set =>
    rw [corrects] at set
    cases set
  | inr works =>
    rw [corrects] at works
    cases works.1

theorem lookup_hash {env env' : Env V} {path : Path} {fields fields' : Fields V} {field : String}
    {rest : List String} (walked : path.rest = field :: rest)
    (here : env.fetch path.head = .ok (o.hash fields))
    (there : env'.fetch path.head = .ok (o.hash fields')) (same : fields field = fields' field) :
    env.lookup o.toOperators path = env'.lookup o.toOperators path := by
  rw [Env.lookup, Env.lookup, here, there, walked]
  have walk : o.walkPath (o.hash fields) (field :: rest) =
      o.walkPath (o.hash fields') (field :: rest) := by
    rw [o.walkPath_hash, o.walkPath_hash, same]
  exact walk

theorem fetch_givens_parent (pre : Fields V) :
    (givensEnv o.toSurroundings a c args pre fun _ => none).fetch "parent" = .ok (o.hash pre) := by
  have bound : (givensEnv o.toSurroundings a c args pre fun _ => none).attrs "parent" =
      some (o.hash pre) := by
    simp only [givensEnv, ruleContext, merge, set_self]
  simp only [Env.fetch, bound]

theorem givens_congr (h : Close o a c plan args pre pre') (counted : Counted a c plan) :
    enforceGivens o.toSurroundings a c args pre (fun _ => none) =
      enforceGivens o.toSurroundings a c args pre' (fun _ => none) := by
  have rules : refuseUnmet o.toSurroundings
      (givensEnv o.toSurroundings a c args pre fun _ => none)
      (fun description => .givenNotMet s!"{c.name} refused — {description}") c.givens =
      refuseUnmet o.toSurroundings (givensEnv o.toSurroundings a c args pre' fun _ => none)
      (fun description => .givenNotMet s!"{c.name} refused — {description}") c.givens := by
    apply refuseUnmet_congr
    intro rule mem node parsed path read
    obtain ⟨found, classified, within⟩ := counted.givens rule mem node parsed path read
    unfold classifyPath at classified
    by_cases parent : path.head = "parent"
    · rw [if_pos parent] at classified
      obtain ⟨field, rest, walked, listed⟩ := within_of_nested classified within
      apply lookup_hash walked _ _ (h.read listed)
      · rw [parent, fetch_givens_parent]
      · rw [parent, fetch_givens_parent]
    · rw [if_neg parent] at classified
      apply lookup_of_fetch
      apply fetch_givens parent
      intro absent
      have uncounted : (c.payloadFields.contains path.head || path.head == "old") = true →
          pre path.head = pre' path.head := by
        intro named
        apply h.given
        apply List.mem_filter.mpr
        refine ⟨mem_ruleHeads mem parsed read, ?_⟩
        rw [named, absent]
        rfl
      by_cases old : path.head = "old"
      · apply uncounted
        simp [old]
      · rw [if_neg old] at classified
        cases classified
        obtain payload | listed | ⟨after, -⟩ := within_of_named within
        · apply uncounted
          rw [payload]
          rfl
        · exact h.read listed
        · cases after
  have guard : enforceLifecycleGuard o.toSurroundings a c pre =
      enforceLifecycleGuard o.toSurroundings a c pre' := by
    unfold enforceLifecycleGuard
    cases admits : c.admits with
    | none => rfl
    | some states =>
      cases held : a.lifecycle with
      | none => rfl
      | some lifecycle =>
        have listed : lifecycle.field ∈ plan.readSet := by
          have within := counted.lifecycle.1
          unfold analyzeLifecycle at within
          rw [held, admits] at within
          exact within (List.mem_append_left _ List.mem_cons_self)
        have current : currentState o.toSurroundings lifecycle pre =
            currentState o.toSurroundings lifecycle pre' := by
          rw [currentState, currentState, h.read listed]
        simp only [current]
  simp only [enforceGivens, rules, guard]

/-- A rule over the settled record reads what was set, counted or agreed. -/
theorem settled_of_path (h : Close o a c plan args pre pre')
    (carried : Carried (setFields a c) pre pre' post post') {path : Path}
    (within : (classifyNamedPath a c (analyzeEffects a c).knownWrites .after path).Within
      plan.readSet)
    (read : uncountedAfter a c path.head = true → path.head ∈ uncountedSettled o a c args) :
    post path.head = post' path.head := by
  obtain payload | listed | ⟨-, known⟩ := within_of_named within
  · apply h.settled carried
    apply read
    rw [uncountedAfter, payload]
    rfl
  · exact carried _ (Or.inr (h.read listed))
  · apply h.settled carried
    apply read
    rw [uncountedAfter, known, Bool.or_true]

theorem fetch_ensures_old (pre post : Fields V) :
    (ensuresEnv o.toSurroundings a c args pre post fun _ => none).fetch "old" =
      .ok (o.hash pre) := by
  have bound : (ensuresEnv o.toSurroundings a c args pre post fun _ => none).attrs "old" =
      some (o.hash pre) := by
    simp only [ensuresEnv, set_self]
  simp only [Env.fetch, bound]

theorem fetch_ensures_parent (pre post : Fields V) :
    (ensuresEnv o.toSurroundings a c args pre post fun _ => none).fetch "parent" =
      .ok (o.hash post) := by
  have bound : (ensuresEnv o.toSurroundings a c args pre post fun _ => none).attrs "parent" =
      some (o.hash post) := by
    have apart : "parent" ≠ "old" := by decide
    simp only [ensuresEnv, set_other _ _ apart, ruleContext, merge, set_self]
  simp only [Env.fetch, bound]

theorem fetch_ensures {name : String} (parent : name ≠ "parent") (old : name ≠ "old")
    (same : (o.dereference c args name).isNone = true → post name = post' name) :
    (ensuresEnv o.toSurroundings a c args pre post fun _ => none).fetch name =
      (ensuresEnv o.toSurroundings a c args pre' post' fun _ => none).fetch name := by
  have attrs : ∀ pre post : Fields V,
      (ensuresEnv o.toSurroundings a c args pre post fun _ => none).attrs name =
        merge (fun name => if (post name).isSome then none else args name)
          (o.dereference c args) name := fun pre post =>
    (set_other _ _ old).trans (set_other _ _ parent)
  unfold Env.fetch
  rw [attrs, attrs]
  cases held : o.dereference c args name with
  | some value => simp only [merge, held]
  | none =>
    have settled : post name = post' name := same (by rw [held]; rfl)
    have guarded : guardState o.toSurroundings a post name =
        guardState o.toSurroundings a post' name := guardState_congr settled
    simp only [merge, held, settled, ensuresEnv, guarded]

theorem ensures_congr (h : Close o a c plan args pre pre') (counted : Counted a c plan)
    (carried : Carried (setFields a c) pre pre' post post') :
    enforceEnsures o.toSurroundings a c args pre post (fun _ => none) =
      enforceEnsures o.toSurroundings a c args pre' post' (fun _ => none) := by
  apply refuseUnmet_congr
  intro rule mem node parsed path read
  obtain ⟨found, classified, within⟩ := counted.ensures rule mem node parsed path read
  unfold classifyPath at classified
  by_cases parent : path.head = "parent"
  · rw [if_pos parent] at classified
    obtain ⟨field, rest, walked, listed⟩ := within_of_nested classified within
    apply lookup_hash walked _ _ (carried field (Or.inr (h.read listed)))
    · rw [parent, fetch_ensures_parent]
    · rw [parent, fetch_ensures_parent]
  · rw [if_neg parent] at classified
    by_cases old : path.head = "old"
    · rw [if_pos old] at classified
      obtain ⟨field, rest, walked, listed⟩ := within_of_nested classified within
      apply lookup_hash walked _ _ (h.read listed)
      · rw [old, fetch_ensures_old]
      · rw [old, fetch_ensures_old]
    · rw [if_neg old] at classified
      cases classified
      apply lookup_of_fetch
      apply fetch_ensures parent old
      intro absent
      apply settled_of_path h carried within
      intro uncounted
      unfold uncountedSettled
      simp only [List.append_assoc]
      apply List.mem_append_left
      apply List.mem_filter.mpr
      refine ⟨mem_ruleHeads mem parsed read, ?_⟩
      simp [uncounted, parent, old, absent]

theorem invariants_congr (h : Close o a c plan args pre pre') (counted : Counted a c plan)
    (carried : Carried (setFields a c) pre pre' post post') :
    enforceInvariants o.toSurroundings a post = enforceInvariants o.toSurroundings a post' := by
  have rules : ∀ refusal : String → Refusal, refuseUnmet o.toSurroundings
      ⟨fun _ => none, guardState o.toSurroundings a post⟩ refusal a.invariants =
      refuseUnmet o.toSurroundings ⟨fun _ => none, guardState o.toSurroundings a post'⟩ refusal
        a.invariants := by
    intro refusal
    apply refuseUnmet_congr
    intro rule mem node parsed path read
    apply lookup_of_fetch
    have same : post path.head = post' path.head := by
      have inside : (uncountedAfter a c path.head || path.head == "parent" ||
          path.head == "old") = true → path.head ∈ uncountedSettled o a c args := by
        intro uncounted
        unfold uncountedSettled
        simp only [List.append_assoc]
        apply List.mem_append_right
        apply List.mem_append_left
        exact List.mem_filter.mpr ⟨mem_ruleHeads mem parsed read, uncounted⟩
      obtain ⟨found, classified, within⟩ := counted.invariants rule mem node parsed path read
      unfold classifyPath at classified
      by_cases parent : path.head = "parent"
      · apply h.settled carried
        apply inside
        simp [parent]
      · rw [if_neg parent] at classified
        by_cases old : path.head = "old"
        · apply h.settled carried
          apply inside
          simp [old]
        · rw [if_neg old] at classified
          cases classified
          apply settled_of_path h carried within
          intro uncounted
          apply inside
          simp [uncounted]
    simp only [Env.fetch, guardState_congr same]
  have entities : o.checkEntityInvariants post = o.checkEntityInvariants post' := by
    rw [o.checkEntityInvariants_eq, o.checkEntityInvariants_eq]
    have held : o.entityReads.map post = o.entityReads.map post' := by
      apply List.map_congr_left
      intro name listed
      apply h.settled carried
      unfold uncountedSettled
      apply List.mem_append_left
      apply List.mem_append_left
      exact List.mem_append_right _ listed
    rw [held]
  simp only [enforceInvariants, rules, entities]

theorem references_congr (h : Close o a c plan args pre pre')
    (carried : Carried (setFields a c) pre pre' post post') :
    o.resolveStateReferences post = o.resolveStateReferences post' := by
  rw [o.resolveStateReferences_eq, o.resolveStateReferences_eq]
  have held : o.referenceReads.map post = o.referenceReads.map post' := by
    apply List.map_congr_left
    intro name listed
    apply h.settled carried
    unfold uncountedSettled
    apply List.mem_append_left
    exact List.mem_append_right _ listed
  rw [held]

/-! ### Projected fields -/

theorem seed_sameOn {names : List String}
    (same : SameOn (seededBy names a.projectedFields) post post') :
    SameOn names (seedProjectedFields o.toSurroundings a post)
      (seedProjectedFields o.toSurroundings a post') := by
  unfold seedProjectedFields
  generalize a.projectedFields = fields at same ⊢
  induction fields generalizing post post' with
  | nil => exact same
  | cons field fields ih =>
    rw [List.foldl_cons, List.foldl_cons]
    apply ih
    intro name mem
    unfold seededBy at same
    by_cases written : name = field.name
    · subst written
      simp only [List.contains_iff_mem.mpr mem, if_true] at same
      have value : o.remoteValue post field = o.remoteValue post' field := by
        rw [o.remoteValue_eq, o.remoteValue_eq, same field.reference List.mem_cons_self]
      rw [value]
      cases o.remoteValue post' field with
      | none => exact same field.name (List.mem_cons_of_mem _ mem)
      | some value => simp only [set_self]
    · have before : post name = post' name := by
        apply same
        simp only
        split
        · exact List.mem_cons_of_mem _ mem
        · exact mem
      cases o.remoteValue post field <;> cases o.remoteValue post' field <;>
        simp only [set_other _ _ written, before]

end

/-! ### Two dispatches -/

section

variable {ω V : Type} {o : Located ω V} {a : Aggregate ω V} {c : Command ω V} {plan : Plan}
  {args pre pre' post post' : Fields V}

theorem delegateStep_of_counted (counted : Counted a c plan) (state : Fields V) :
    delegateStep o.toSurroundings c args state = .ok state := by
  have none : ¬(c.mutations.any fun m => m.op = .delegate) = true := by
    intro some
    obtain ⟨m, mem, delegate⟩ := List.any_eq_true.mp some
    simp only [decide_eq_true_eq] at delegate
    cases within_of_mutation (counted.mutations m mem) with
    | inl set =>
      rw [delegate] at set
      cases set
    | inr works =>
      rw [delegate] at works
      cases works.1
  rw [delegateStep, if_neg none]

theorem settle_sameOn (h : Close o a c plan args pre pre') (counted : Counted a c plan)
    (carried : Carried (setFields a c) pre pre' post post') :
    SameOutcome plan.writeSet (settle o.toSurroundings a c args pre post fun _ => none)
      (settle o.toSurroundings a c args pre' post' fun _ => none) := by
  have seeded : SameOn (setFields a c) (seedProjectedFields o.toSurroundings a post)
      (seedProjectedFields o.toSurroundings a post') := by
    apply seed_sameOn
    intro name mem
    apply h.settled carried
    exact List.mem_append_right _ mem
  simp only [settle, ensures_congr h counted carried, invariants_congr h counted carried,
    references_congr h carried]
  apply TwoRuns.Related.after
  intro _ _
  apply TwoRuns.Related.after
  intro _ _
  apply TwoRuns.Related.after
  intro _ _
  exact fun name mem => seeded name (counted.writes mem)

/-- Two records that agree on a plan's read set, and on the fields a command reads that the
analysis leaves out of it, are both refused or given the same values. -/
theorem same_outcome_of_uncounted {given : Fields V} {history : List (Event V)}
    (planned : analyze a c = some plan) (resolved : plan.unresolvedDependencies = [])
    (agree : ∀ args, o.takeArgs c given = .ok args →
      SameOn (plan.readSet ++ uncounted o a c args) pre pre') :
    SameOutcome plan.writeSet (dispatchOnce o.toSurroundings a c given ⟨some pre, history⟩)
      (dispatchOnce o.toSurroundings a c given ⟨some pre', history⟩) := by
  have counted := counted_of_analyze planned resolved
  have ran : ∀ record : Fields V,
      dispatchOnce o.toSurroundings a c given ⟨some record, history⟩ =
        (orRefuse (o.takeArgs c given) >>= fun args =>
          enforceGivens o.toSurroundings a c args record (fun _ => none) >>= fun _ =>
            admissibleTransition o.toSurroundings a c record >>= fun transition =>
              applyAllMutations o.toSurroundings c args record >>= fun mutated =>
                settle o.toSurroundings a c args record
                  (advanceLifecycle o.toSurroundings a transition mutated) fun _ => none) := by
    intro record
    simp only [dispatchOnce, planned, corrected_of_counted counted,
      delegateStep_of_counted counted]
    rfl
  rw [ran, ran]
  apply TwoRuns.Related.after
  intro args admitted
  have close : Close o a c plan args pre pre' := agree args (orRefuse_ok admitted)
  rw [givens_congr close counted, admissibleTransition_congr fun name => close.moves]
  apply TwoRuns.Related.after
  intro _ _
  apply TwoRuns.Related.after
  intro transition moves
  rw [← admissibleTransition_congr fun name => close.moves] at moves
  apply (applyAllMutations_carried close counted).bind
  intro mutated mutated' carried
  exact settle_sameOn close counted (advance_carried moves carried)

end

/-! An order's total is a subtotal the record holds. The subtotal has a default, so the analysis
takes it to be known. -/

def total : Attribute Held := ⟨"total", "String", false, false, none⟩

def subtotal : Attribute Held := ⟨"subtotal", "String", false, false, some (.text "0")⟩

def order : Aggregate Empty Held where
  name := "Order"
  attributes := [plain "number", total, subtotal]
  valueObjects := []
  lifecycle := none
  projectedFields := []
  invariants := []

def close : Command Empty Held where
  name := "Close"
  attributes := [plain "number"]
  mutations := [⟨"total", .set, .stateRef "subtotal", none⟩]
  givens := []
  ensures := []
  admits := none
  emits := []

/-- The shop's values, read by place. -/
def till : Located Empty Held where
  toSurroundings := { shop with walkPath := fun _ _ => .ok .nil }
  walkPath_hash _ _ _ := rfl
  work _ _ _ := .error "no list or number mutation is declared"
  worked_eq _ _ _ := rfl
  entityReads := []
  entities _ := .ok ()
  checkEntityInvariants_eq _ := rfl
  referenceReads := []
  references _ := .ok ()
  resolveStateReferences_eq _ := rfl
  remote _ _ := none
  remoteValue_eq _ _ := rfl

def ordered (number subtotal : String) : Fields Held :=
  holding [("number", .text number), ("subtotal", .text subtotal)]

def closing : Plan where
  readSet := ["number"]
  writeSet := ["total"]
  payloadReadSet := []
  completeState := false
  stateIndependent := false
  unresolvedDependencies := []

deriving instance DecidableEq for Plan

theorem closing_planned : analyze order close = some closing := by decide +kernel

/-- Closed with the subtotal it holds for a total. -/
theorem closed (number subtotal : String) :
    dispatchOnce till.toSurroundings order close (holding [])
      ⟨some (ordered number subtotal), []⟩ =
      .ok ⟨set (ordered number subtotal) "total" (.text subtotal), []⟩ := by
  simp only [dispatchOnce, closing_planned]
  rfl

/-- Two orders with one number and one subtotal are closed with the same total. -/
theorem total_of_subtotal :
    SameOutcome ["total"]
      (dispatchOnce till.toSurroundings order close (holding []) ⟨some (ordered "1" "5"), []⟩)
      (dispatchOnce till.toSurroundings order close (holding [])
        ⟨some (set (ordered "1" "5") "total" (.text "3")), []⟩) := by
  apply same_outcome_of_uncounted closing_planned rfl
  intro args admitted
  cases admitted
  unfold SameOn
  decide

/-- Two orders that agree on all the plan counts as read are closed with different totals. -/
theorem total_of_subtotals :
    analyze order close = some closing ∧ closing.unresolvedDependencies = [] ∧
      ¬ReadSetComplete till order close closing := by
  refine ⟨closing_planned, rfl, ?_⟩
  intro complete
  have agree : SameOn closing.readSet (ordered "1" "5") (ordered "1" "7") := by
    intro name mem
    have same : name = "number" := by simpa [closing] using mem
    rw [same]
    decide
  have outcome := complete (holding []) [] _ _ agree
  rw [closed, closed] at outcome
  have same := outcome "total" List.mem_cons_self
  simp only [set_self, Option.some.injEq, Held.text.injEq, String.reduceEq] at same

end Hecks.Runtime
