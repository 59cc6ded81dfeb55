import Hecks.Lib.Reading
import Hecks.Runtime.Acting

/-! When two commands that act on one record leave what some order of them leaves. -/
namespace Hecks.Runtime

inductive Side where
  | first
  | second
  deriving DecidableEq

section

variable {ω V : Type} (o : Surroundings ω V) (a : Aggregate ω V)

/-- The fields a command sets whenever it is accepted. -/
def setFields (c : Command ω V) : List String :=
  c.mutations.map (·.target) ++
    match a.lifecycle with
    | none => []
    | some lifecycle =>
        if (lifecycle.transitionsFor c.name).isEmpty then [] else [lifecycle.field]

/-- The fields it may leave other than they were. -/
def changedFields (c : Command ω V) : List String :=
  setFields a c ++ a.projectedFields.map (·.name) ++ o.delegated c

/-- The heads of the paths a list of rules reads. -/
def ruleHeads (rules : List (Rule ω)) : List String :=
  rules.flatMap fun rule =>
    match rule.node with
    | .ok node => (paths node).map (·.head)
    | .error _ => []

def sourceReads (args : Fields V) : Source ω V → List String
  | .stateRef name => [name]
  | .computed text => ((paths text).map (·.head)).filter fun name => (args name).isNone
  | _ => []

def lifecycleReads (c : Command ω V) : List String :=
  match a.lifecycle with
  | none => []
  | some lifecycle =>
      if (lifecycle.transitionsFor c.name).any (·.constrained) then [lifecycle.field] else []

/-- The names a command whose mutations are all sets takes from the record: those its givens and
sources do not find among the arguments, and the state it moves from. -/
def readFields (c : Command ω V) (args : Fields V) : List String :=
  (ruleHeads c.givens).filter (fun name => (merge args (o.dereference c args) name).isNone) ++
    c.mutations.flatMap (fun m => sourceReads args m.source) ++ lifecycleReads a c

/-- All the other command may change, this one sets itself and does not read. -/
def Covers (d other : Dispatch ω V) : Prop :=
  ∀ args, o.takeArgs d.command d.args = .ok args → ∀ field ∈ changedFields o a other.command,
    field ∈ setFields a d.command ∧ field ∉ readFields o a d.command args

/-- A command planned as an atomic put covers the other. -/
def PutsCover (dispatches : Side → Dispatch ω V) : Prop :=
  ∀ i j, i ≠ j → strategy a (dispatches i).command = some .atomicPut →
    Covers o a (dispatches i) (dispatches j)

/-- Both accepted, the two have left what they leave in one order or the other. -/
def NoLostUpdate (dispatches : Side → Dispatch ω V) : Prop :=
  ∀ stored version actions cell,
    (dispatchers o a dispatches).run actions (Optimistic.start stored version) = some cell →
    (∀ i, cell.phase i = .accepted) →
    ∃ order, (order = [.first, .second] ∨ order = [.second, .first]) ∧
      (dispatchers o a dispatches).serial order stored = .ok cell.value

end

/-! ### What a command changes -/

section

variable {ω V : Type} {o : Surroundings ω V} {a : Aggregate ω V} {c : Command ω V}
  {args pre state state' : Fields V} {name : String}

theorem set_self (fields : Fields V) (name : String) (value : V) :
    set fields name value name = some value := by
  simp only [set, Function.update_self]

theorem set_other (fields : Fields V) {name field : String} (value : V) (h : field ≠ name) :
    set fields name value field = fields field := by
  simp only [set, Function.update_of_ne h]

theorem orRefuse_ok {α : Type} {result : Except String α} {value : α}
    (h : orRefuse result = .ok value) : result = .ok value := by
  cases result with
  | ok held =>
    cases h
    rfl
  | error message => cases h

theorem applyMutation_other {m : Mutation ω V} (other : name ≠ m.target)
    (applied : applyMutation o args pre state m = .ok state') : state' name = state name := by
  have written : ∀ held, set state m.target held = state' → state' name = state name := by
    intro held same
    rw [← same, set_other _ _ other]
  unfold applyMutation at applied
  split at applied
  · obtain ⟨value, -, rest⟩ := Reading.bind_eq_ok.mp applied
    obtain ⟨held, -, rest⟩ := Reading.bind_eq_ok.mp rest
    exact written held (Except.ok.inj rest)
  · cases applied
    rfl
  · cases applied
    rfl
  · obtain ⟨held, -, rest⟩ := Reading.bind_eq_ok.mp applied
    exact written held (Except.ok.inj rest)

theorem applyMutations_other {ms : List (Mutation ω V)} (other : ∀ m ∈ ms, name ≠ m.target)
    (applied : ms.foldlM (applyMutation o args pre) state = .ok state') :
    state' name = state name := by
  induction ms generalizing state with
  | nil =>
    cases applied
    rfl
  | cons m ms ih =>
    rw [List.foldlM_cons] at applied
    obtain ⟨middle, first, rest⟩ := Reading.bind_eq_ok.mp applied
    have later := ih (fun n mem => other n (List.mem_cons_of_mem m mem)) rest
    exact later.trans (applyMutation_other (other m List.mem_cons_self) first)

theorem moves_of_transition {transition : StateTransition} {lifecycle : Lifecycle}
    (held : a.lifecycle = some lifecycle)
    (admitted : admissibleTransition o a c pre = .ok (some transition)) :
    lifecycle.field ∈ setFields a c := by
  unfold admissibleTransition at admitted
  unfold setFields
  simp only [held] at admitted ⊢
  by_cases none : (lifecycle.transitionsFor c.name).isEmpty = true
  · rw [if_pos none] at admitted
    cases admitted
  · rw [if_neg none]
    exact List.mem_append_right _ List.mem_cons_self

theorem advance_other {transition : Option StateTransition} (still : name ∉ setFields a c)
    (admitted : admissibleTransition o a c pre = .ok transition) :
    advanceLifecycle o a transition state name = state name := by
  cases transition with
  | none => rfl
  | some t =>
    cases held : a.lifecycle with
    | none => simp only [advanceLifecycle, held]
    | some lifecycle =>
      have moved := moves_of_transition held admitted
      simp only [advanceLifecycle, held]
      exact set_other state _ fun same => still (same ▸ moved)

theorem delegateStep_other (still : name ∉ o.delegated c)
    (applied : delegateStep o c args state = .ok state') : state' name = state name := by
  unfold delegateStep at applied
  split at applied
  · exact o.delegate_keeps c args state state' (orRefuse_ok applied) name still
  · cases applied
    rfl

theorem seed_other (still : name ∉ a.projectedFields.map (·.name)) :
    seedProjectedFields o a state name = state name := by
  unfold seedProjectedFields
  generalize a.projectedFields = fields at still
  induction fields generalizing state with
  | nil => rfl
  | cons field fields ih =>
    rw [List.map_cons, List.mem_cons, not_or] at still
    rw [List.foldl_cons, ih still.2]
    cases o.remoteValue state field with
    | none => rfl
    | some value => exact set_other state value still.1

/-- The steps of an accepted attempt, each with what it came to. -/
structure Accepted (o : Surroundings ω V) (a : Aggregate ω V) (c : Command ω V)
    (given : Fields V) (history : List (Event V)) (pre : Fields V) (saved : Saved V)
    (args correction mutated post : Fields V) (transition : Option StateTransition) : Prop where
  planned : (analyze a c).isSome
  admitted : o.takeArgs c given = .ok args
  corrected : enforceCorrectionTarget c history = .ok correction
  met : enforceGivens o a c args pre correction = .ok ()
  moves : admissibleTransition o a c pre = .ok transition
  mutates : applyAllMutations o c args pre = .ok mutated
  delegates : delegateStep o c args (advanceLifecycle o a transition mutated) = .ok post
  settles : settle o a c args pre post correction = .ok saved

theorem dispatchOnce_ok {given : Fields V} {stored : Stored V} {saved : Saved V} :
    dispatchOnce o a c given stored = .ok saved ↔
      ∃ pre args correction mutated post transition, stored.record = some pre ∧
        Accepted o a c given stored.history pre saved args correction mutated post transition := by
  unfold dispatchOnce
  cases planned : analyze a c with
  | none =>
    constructor
    · intro raised
      cases raised
    · rintro ⟨_, _, _, _, _, _, _, accepted⟩
      have held := accepted.planned
      rw [planned] at held
      cases held
  | some plan =>
    constructor
    · intro ran
      obtain ⟨args, admitted, ran⟩ := Reading.bind_eq_ok.mp ran
      cases found : stored.record with
      | none =>
        rw [found] at ran
        cases ran
      | some pre =>
        rw [found] at ran
        obtain ⟨correction, corrected, ran⟩ := Reading.bind_eq_ok.mp ran
        obtain ⟨⟨⟩, met, ran⟩ := Reading.bind_eq_ok.mp ran
        obtain ⟨transition, moves, ran⟩ := Reading.bind_eq_ok.mp ran
        obtain ⟨mutated, mutates, ran⟩ := Reading.bind_eq_ok.mp ran
        obtain ⟨post, delegates, settles⟩ := Reading.bind_eq_ok.mp ran
        exact ⟨pre, args, correction, mutated, post, transition, rfl, planned ▸ rfl,
          orRefuse_ok admitted, corrected, met, moves, mutates, delegates, settles⟩
    · rintro ⟨pre, args, correction, mutated, post, transition, found, accepted⟩
      apply Reading.bind_eq_ok.mpr
      refine ⟨args, by rw [accepted.admitted]; rfl, ?_⟩
      rw [found]
      apply Reading.bind_eq_ok.mpr
      refine ⟨correction, accepted.corrected, ?_⟩
      apply Reading.bind_eq_ok.mpr
      refine ⟨(), accepted.met, ?_⟩
      apply Reading.bind_eq_ok.mpr
      refine ⟨transition, accepted.moves, ?_⟩
      apply Reading.bind_eq_ok.mpr
      refine ⟨mutated, accepted.mutates, ?_⟩
      apply Reading.bind_eq_ok.mpr
      exact ⟨post, accepted.delegates, accepted.settles⟩

theorem state_of_settle {post correction : Fields V} {saved : Saved V}
    (settles : settle o a c args pre post correction = .ok saved) :
    saved.state = seedProjectedFields o a post := by
  unfold settle at settles
  obtain ⟨⟨⟩, -, settles⟩ := Reading.bind_eq_ok.mp settles
  obtain ⟨⟨⟩, -, settles⟩ := Reading.bind_eq_ok.mp settles
  obtain ⟨⟨⟩, -, settles⟩ := Reading.bind_eq_ok.mp settles
  cases settles
  rfl

/-- An accepted command leaves every other field as it found it. -/
theorem accepted_keeps {given correction mutated post : Fields V} {history : List (Event V)}
    {saved : Saved V} {transition : Option StateTransition}
    (h : Accepted o a c given history pre saved args correction mutated post transition)
    (still : name ∉ changedFields o a c) : saved.state name = pre name := by
  simp only [changedFields, List.mem_append, not_or] at still
  obtain ⟨⟨notSet, notProjected⟩, notDelegated⟩ := still
  have others : ∀ m ∈ c.mutations, name ≠ m.target := by
    intro m mem same
    apply notSet
    rw [same]
    exact List.mem_append_left _ (List.mem_map_of_mem mem)
  calc saved.state name
      = seedProjectedFields o a post name := by rw [state_of_settle h.settles]
    _ = post name := seed_other notProjected
    _ = advanceLifecycle o a transition mutated name := delegateStep_other notDelegated h.delegates
    _ = mutated name := advance_other notSet h.moves
    _ = pre name := applyMutations_other others h.mutates

end

/-! ### What an atomic put works out again -/

section

variable {ω V : Type} {o : Surroundings ω V} {a : Aggregate ω V} {c : Command ω V}
  {args pre pre' : Fields V}

/-- The two states differ only where the command sets and does not read. -/
def Apart (o : Surroundings ω V) (a : Aggregate ω V) (c : Command ω V) (args : Fields V)
    (pre pre' : Fields V) : Prop :=
  ∀ field, pre field ≠ pre' field → field ∈ setFields a c ∧ field ∉ readFields o a c args

theorem Apart.read (h : Apart o a c args pre pre') {field : String}
    (read : field ∈ readFields o a c args) : pre field = pre' field := by
  by_contra differ
  exact (h field differ).2 read

theorem Apart.unset (h : Apart o a c args pre pre') {field : String}
    (unset : field ∉ setFields a c) : pre field = pre' field := by
  by_contra differ
  exact unset (h field differ).1

theorem guardState_congr {name : String} (same : pre name = pre' name) :
    guardState o a pre name = guardState o a pre' name := by
  unfold guardState
  rw [same]

theorem callRule_congr {env env' : Env V} {rule : Rule ω}
    (agree : ∀ node, rule.node = .ok node → ∀ path ∈ paths node,
      env.lookup o.toOperators path = env'.lookup o.toOperators path) :
    callRule o env rule = callRule o env' rule := by
  unfold callRule
  cases parsed : rule.node with
  | error message => rfl
  | ok node =>
    have same := interpret_of_lookups (agree node parsed)
    simp only [same]

theorem refuseUnmet_congr {env env' : Env V} {refusal : String → Refusal} {rules : List (Rule ω)}
    (agree : ∀ rule ∈ rules, ∀ node, rule.node = .ok node → ∀ path ∈ paths node,
      env.lookup o.toOperators path = env'.lookup o.toOperators path) :
    refuseUnmet o env refusal rules = refuseUnmet o env' refusal rules := by
  induction rules with
  | nil => rfl
  | cons rule rules ih =>
    have here := callRule_congr (o := o) (agree rule List.mem_cons_self)
    have rest := ih fun r mem => agree r (List.mem_cons_of_mem rule mem)
    simp only [refuseUnmet, here, rest]

theorem mem_ruleHeads {rules : List (Rule ω)} {rule : Rule ω} {node : Node ω} {path : Path}
    (mem : rule ∈ rules) (parsed : rule.node = .ok node) (read : path ∈ paths node) :
    path.head ∈ ruleHeads rules := by
  apply List.mem_flatMap.mpr
  refine ⟨rule, mem, ?_⟩
  rw [parsed]
  exact List.mem_map_of_mem read

/-- A given finds a name among the arguments and what they refer to, or in the record. -/
theorem fetch_givens {name : String} (named : name ≠ "parent")
    (same : (merge args (o.dereference c args) name).isNone = true → pre name = pre' name) :
    (givensEnv o a c args pre fun _ => none).fetch name =
      (givensEnv o a c args pre' fun _ => none).fetch name := by
  have attrs : ∀ state : Fields V, (givensEnv o a c args state fun _ => none).attrs name =
      merge args (o.dereference c args) name := fun state => set_other _ _ named
  unfold Env.fetch
  rw [attrs pre, attrs pre']
  cases held : merge args (o.dereference c args) name with
  | some value => rfl
  | none =>
    have absent : (merge args (o.dereference c args) name).isNone = true := by rw [held]; rfl
    have guarded : guardState o a pre name = guardState o a pre' name :=
      guardState_congr (same absent)
    simp only [givensEnv, guarded]

theorem corrected_of_none (history : List (Event V)) (no : ∀ m ∈ c.mutations, m.op ≠ .corrects) :
    enforceCorrectionTarget c history = .ok fun _ => none := by
  have empty : c.mutations.filter (fun m => m.op = .corrects) = [] := by
    apply List.filter_eq_nil_iff.mpr
    intro m mem
    simpa using no m mem
  rw [enforceCorrectionTarget, empty]
  rfl

theorem corrected_of_sets (independent : Independent a c) (history : List (Event V)) :
    enforceCorrectionTarget c history = .ok fun _ => none := by
  apply corrected_of_none
  intro m mem
  rw [independent.sets m mem]
  decide

theorem enforceGivens_congr (independent : Independent a c) (h : Apart o a c args pre pre') :
    enforceGivens o a c args pre (fun _ => none) =
      enforceGivens o a c args pre' (fun _ => none) := by
  have rules : refuseUnmet o (givensEnv o a c args pre fun _ => none)
      (fun description => .givenNotMet s!"{c.name} refused — {description}") c.givens =
      refuseUnmet o (givensEnv o a c args pre' fun _ => none)
      (fun description => .givenNotMet s!"{c.name} refused — {description}") c.givens := by
    apply refuseUnmet_congr
    intro rule mem node parsed path read
    apply lookup_of_fetch
    apply fetch_givens (independent.givens rule mem node parsed path read).1
    intro absent
    apply h.read
    apply List.mem_append_left
    apply List.mem_append_left
    exact List.mem_filter.mpr ⟨mem_ruleHeads mem parsed read, absent⟩
  have guard : enforceLifecycleGuard o a c pre = enforceLifecycleGuard o a c pre' := by
    unfold enforceLifecycleGuard
    cases held : a.lifecycle with
    | none => rfl
    | some lifecycle =>
      have free : c.admits = none := independent.admits (by rw [held]; rfl)
      simp only [free]
  simp only [enforceGivens, rules, guard]

theorem admissibleTransition_congr (read : ∀ name ∈ lifecycleReads a c, pre name = pre' name) :
    admissibleTransition o a c pre = admissibleTransition o a c pre' := by
  unfold admissibleTransition
  cases held : a.lifecycle with
  | none => rfl
  | some lifecycle =>
    by_cases constrained : (lifecycle.transitionsFor c.name).any (·.constrained) = true
    · have reads : lifecycle.field ∈ lifecycleReads a c := by
        simp only [lifecycleReads, held, constrained, if_true]
        exact List.mem_cons_self
      have current : currentState o lifecycle pre = currentState o lifecycle pre' := by
        rw [currentState, currentState, read lifecycle.field reads]
      simp only [current]
    · cases candidates : lifecycle.transitionsFor c.name with
      | nil => simp only [candidates, List.isEmpty_nil, if_true]
      | cons t others =>
        -- an unconstrained candidate is taken whatever the state
        have free : t.constrained = false := by
          rw [candidates, List.any_cons, Bool.or_eq_true, not_or] at constrained
          exact Bool.eq_false_iff.mpr constrained.1
        simp only [candidates, List.isEmpty_cons, Bool.false_eq_true, if_false, List.find?_cons,
          free, Bool.not_false, Bool.true_or]

theorem admissibleTransition_again (h : Apart o a c args pre pre')
    {transition : Option StateTransition}
    (admitted : admissibleTransition o a c pre = .ok transition) :
    admissibleTransition o a c pre' = .ok transition := by
  rw [← admissibleTransition_congr fun name mem => h.read (List.mem_append_right _ mem)]
  exact admitted

theorem setSourceValue_congr {source : Source ω V}
    (read : ∀ name ∈ sourceReads args source, pre name = pre' name) :
    setSourceValue o args pre source = setSourceValue o args pre' source := by
  cases source with
  | stateRef name => simp only [setSourceValue, read name List.mem_cons_self]
  | computed text =>
    have agree : ∀ path ∈ paths text, (computedEnv args pre).fetch path.head =
        (computedEnv args pre').fetch path.head := by
      intro path inside
      unfold Env.fetch computedEnv
      cases held : args path.head with
      | some value => simp only [held]
      | none =>
        have same : pre path.head = pre' path.head := by
          apply read
          apply List.mem_filter.mpr
          refine ⟨List.mem_map_of_mem inside, ?_⟩
          rw [held]
          rfl
        simp only [held, same]
    simp only [setSourceValue, interpret_of_paths (o := o.toOperators) agree]
  | symbol name => rfl
  | bindings fields => rfl
  | literal value => rfl

theorem setSourceValue_again (h : Apart o a c args pre pre') {m : Mutation ω V}
    (mem : m ∈ c.mutations) :
    setSourceValue o args pre m.source = setSourceValue o args pre' m.source := by
  apply setSourceValue_congr
  intro name within
  apply h.read
  apply List.mem_append_left
  apply List.mem_append_right
  exact List.mem_flatMap.mpr ⟨m, mem, within⟩

theorem applyMutations_again {ms : List (Mutation ω V)} (sets : ∀ m ∈ ms, m.op = .set)
    (sources : ∀ m ∈ ms, setSourceValue o args pre m.source = setSourceValue o args pre' m.source)
    {state mutated : Fields V} (state' : Fields V)
    (applied : ms.foldlM (applyMutation o args pre) state = .ok mutated) :
    ∃ mutated', ms.foldlM (applyMutation o args pre') state' = .ok mutated' ∧
      ∀ field, field ∈ ms.map (·.target) ∨ state field = state' field →
        mutated field = mutated' field := by
  induction ms generalizing state state' with
  | nil =>
    cases applied
    refine ⟨state', rfl, ?_⟩
    rintro field (mem | same)
    · exact absurd mem List.not_mem_nil
    · exact same
  | cons m ms ih =>
    rw [List.foldlM_cons] at applied
    obtain ⟨middle, first, rest⟩ := Reading.bind_eq_ok.mp applied
    simp only [applyMutation, sets m List.mem_cons_self] at first
    obtain ⟨value, sourced, first⟩ := Reading.bind_eq_ok.mp first
    obtain ⟨held, coerced, first⟩ := Reading.bind_eq_ok.mp first
    cases first
    obtain ⟨mutated', again, same⟩ := ih
      (fun n mem => sets n (List.mem_cons_of_mem m mem))
      (fun n mem => sources n (List.mem_cons_of_mem m mem)) (set state' m.target held) rest
    refine ⟨mutated', ?_, ?_⟩
    · rw [List.foldlM_cons]
      apply Reading.bind_eq_ok.mpr
      refine ⟨set state' m.target held, ?_, again⟩
      simp only [applyMutation, sets m List.mem_cons_self]
      apply Reading.bind_eq_ok.mpr
      refine ⟨value, (sources m List.mem_cons_self) ▸ sourced, ?_⟩
      apply Reading.bind_eq_ok.mpr
      exact ⟨held, coerced, rfl⟩
    · intro field apart
      apply same
      by_cases target : field = m.target
      · right
        rw [target, set_self, set_self]
      · rw [set_other _ _ target, set_other _ _ target]
        rw [List.map_cons, List.mem_cons] at apart
        rcases apart with (eq | mem) | agree
        · exact absurd eq target
        · exact Or.inl mem
        · exact Or.inr agree

/-- What agreed in the two records still does, and so does what has been written. -/
def Carried (written : List String) (pre pre' post post' : Fields V) : Prop :=
  ∀ field, field ∈ written ∨ pre field = pre' field → post field = post' field

theorem moved_of_setFields {name : String} (mem : name ∈ setFields a c) :
    name ∈ c.mutations.map (·.target) ∨ ∃ lifecycle, a.lifecycle = some lifecycle ∧
      (lifecycle.transitionsFor c.name).isEmpty = false ∧ name = lifecycle.field := by
  unfold setFields at mem
  cases List.mem_append.mp mem with
  | inl target => exact Or.inl target
  | inr moved =>
    right
    cases held : a.lifecycle with
    | none =>
      rw [held] at moved
      exact absurd moved List.not_mem_nil
    | some lifecycle =>
      simp only [held] at moved
      cases empty : (lifecycle.transitionsFor c.name).isEmpty with
      | true =>
        rw [empty, if_pos rfl] at moved
        exact absurd moved List.not_mem_nil
      | false =>
        rw [empty, if_neg Bool.false_ne_true] at moved
        exact ⟨lifecycle, rfl, empty, List.mem_singleton.mp moved⟩

/-- The state a transition leads to is the same, whatever the record holds. -/
theorem advance_carried {mutated mutated' : Fields V} {transition : Option StateTransition}
    (admitted : admissibleTransition o a c pre = .ok transition)
    (same : Carried (c.mutations.map (·.target)) pre pre' mutated mutated') :
    Carried (setFields a c) pre pre' (advanceLifecycle o a transition mutated)
      (advanceLifecycle o a transition mutated') := by
  intro field either
  have others : (∀ lifecycle, a.lifecycle = some lifecycle →
      (lifecycle.transitionsFor c.name).isEmpty = false → field ≠ lifecycle.field) →
      mutated field = mutated' field := by
    intro other
    apply same
    apply either.imp_left
    intro mem
    obtain target | ⟨lifecycle, held, some, moved⟩ := moved_of_setFields mem
    · exact target
    · exact absurd moved (other lifecycle held some)
  cases held : a.lifecycle with
  | none =>
    have whole := others fun lifecycle some => by rw [held] at some; cases some
    simp only [advanceLifecycle, held, whole]
  | some lifecycle =>
    cases transition with
    | none =>
      have empty : (lifecycle.transitionsFor c.name).isEmpty = true := by
        simp only [admissibleTransition, held] at admitted
        by_contra more
        rw [if_neg more] at admitted
        split at admitted <;> cases admitted
      apply others
      intro l some more
      rw [held] at some
      cases some
      rw [empty] at more
      cases more
    | some t =>
      simp only [advanceLifecycle, held]
      by_cases moved : field = lifecycle.field
      · rw [moved, set_self, set_self]
      · rw [set_other _ _ moved, set_other _ _ moved]
        apply others
        intro l some _
        rw [held] at some
        cases some
        exact moved

/-- Once its mutations are applied and its lifecycle advanced, nothing of the difference is left. -/
theorem advance_again (h : Apart o a c args pre pre') {mutated mutated' : Fields V}
    {transition : Option StateTransition}
    (admitted : admissibleTransition o a c pre = .ok transition)
    (same : Carried (c.mutations.map (·.target)) pre pre' mutated mutated') :
    advanceLifecycle o a transition mutated = advanceLifecycle o a transition mutated' := by
  funext field
  apply advance_carried admitted same
  by_cases agree : pre field = pre' field
  · exact Or.inr agree
  · exact Or.inl (h field agree).1

theorem settle_congr (independent : Independent a c) (post : Fields V) :
    settle o a c args pre post (fun _ => none) = settle o a c args pre' post (fun _ => none) := by
  have rules : enforceEnsures o a c args pre post (fun _ => none) =
      enforceEnsures o a c args pre' post (fun _ => none) := by
    apply refuseUnmet_congr
    intro rule mem node parsed path read
    have named := (independent.ensures rule mem node parsed path read).2
    apply lookup_of_fetch
    simp only [Env.fetch, ensuresEnv, set_other _ _ named]
  simp only [settle, rules]

/-- An attempt planned as an atomic put comes to the same over a record that differs only where
the command sets and does not read. -/
theorem accepted_again (independent : Independent a c) (h : Apart o a c args pre pre')
    {given correction mutated post : Fields V} {history : List (Event V)}
    (history' : List (Event V)) {saved : Saved V} {transition : Option StateTransition}
    (accepted : Accepted o a c given history pre saved args correction mutated post transition) :
    ∃ mutated', Accepted o a c given history' pre' saved args correction mutated' post
      transition := by
  have none : correction = fun _ => none := by
    have corrected := accepted.corrected
    rw [corrected_of_sets independent history] at corrected
    exact (Except.ok.inj corrected).symm
  subst none
  obtain ⟨mutated', mutates, same⟩ := applyMutations_again independent.sets
    (fun m mem => setSourceValue_again h mem) pre' accepted.mutates
  have advanced := advance_again h accepted.moves same
  refine ⟨mutated', ?_⟩
  constructor
  · exact accepted.planned
  · exact accepted.admitted
  · exact corrected_of_sets independent history'
  · exact (enforceGivens_congr independent h) ▸ accepted.met
  · exact admissibleTransition_again h accepted.moves
  · exact mutates
  · rw [← advanced]
    exact accepted.delegates
  · exact (settle_congr independent post) ▸ accepted.settles

end

/-! ### Two dispatches on one record -/

section

variable {ω V : Type} {o : Surroundings ω V} {a : Aggregate ω V}
  {dispatches : Side → Dispatch ω V}

theorem independent_of_strategy {c : Command ω V} (atomic : strategy a c = some .atomicPut) :
    Independent a c := by
  obtain ⟨plan, planned, chosen⟩ := Option.map_eq_some_iff.mp atomic
  exact independent_of_atomicPut planned chosen

/-- What a covering put worked out stands after the other's write. -/
theorem absorbs_of_covers (cover : PutsCover o a dispatches) {i j : Side} (apart : i ≠ j)
    (unguarded : (dispatchers o a dispatches).guarded i = false) :
    (dispatchers o a dispatches).Absorbs i j := by
  have atomic : strategy a (dispatches i).command = some .atomicPut := by
    simpa [dispatchers] using unguarded
  have independent := independent_of_strategy atomic
  intro stored saved other worked wrote
  obtain ⟨pre, args, correction, mutated, post, transition, found, accepted⟩ :=
    dispatchOnce_ok.mp worked
  obtain ⟨before, _, _, _, _, _, here, changed⟩ := dispatchOnce_ok.mp wrote
  have same : before = pre := Option.some.inj (here.symm.trans found)
  subst same
  have differ : Apart o a (dispatches i).command args before other.state := by
    intro field differ
    apply cover i j apart atomic args accepted.admitted field
    by_contra still
    exact differ (accepted_keeps changed still).symm
  obtain ⟨mutated', again⟩ := accepted_again independent differ
    (stored.history ++ other.events) accepted
  have worked' : dispatchOnce o a (dispatches i).command (dispatches i).args
      ⟨some other.state, stored.history ++ other.events⟩ = .ok saved :=
    dispatchOnce_ok.mpr ⟨other.state, args, correction, mutated', post, transition, rfl, again⟩
  exact worked'

theorem order_of_both {order : List Side} (once : order.Nodup) (both : ∀ i, i ∈ order) :
    order = [.first, .second] ∨ order = [.second, .first] := by
  have two : order.Perm [.first, .second] := by
    apply (List.perm_ext_iff_of_nodup once (by decide)).mpr
    intro i
    cases i <;> simp [both]
  exact List.perm_pair.mp two

/-- When a command planned as an atomic put sets, and does not read, all the other may change, no
interleaving of the two loses an update. -/
theorem no_lost_update (cover : PutsCover o a dispatches) : NoLostUpdate o a dispatches := by
  intro stored version actions cell ran accepted
  have absorbs : ∀ i j, (dispatchers o a dispatches).guarded i = false → i ≠ j →
      (dispatchers o a dispatches).Absorbs i j :=
    fun i j unguarded apart => absorbs_of_covers cover apart unguarded
  obtain ⟨order, once, wrote, account⟩ := Optimistic.serializable absorbs ran
  refine ⟨order, ?_, account⟩
  exact order_of_both once fun i => (wrote i).mpr (accepted i)

end

/-! An item with a list of tags. Its rename sets what a fresh record lacks, and so is planned as a
put that carries the tags it read. -/

inductive Held where
  | nil
  | text (value : String)
  | list (elements : List String)
  deriving DecidableEq

def shop : Surroundings Empty Held where
  operate operation _ := operation.elim
  elements _ _ := .ok []
  gather _ _ := .ok .nil
  walkPath value _ := .ok value
  truthy value := value ≠ .nil
  nil := .nil
  text := .text
  scalarText
    | .text value => value
    | _ => ""
  hash _ := .nil
  literalHash _ := .nil
  takeArgs _ args := .ok args
  dereference _ _ := fun _ => none
  valueFor _ value := .ok value
  worked _ _ _ := .error "no list or number mutation is declared"
  delegated _ := []
  delegateToEntity _ _ _ := .error "nothing is delegated"
  delegate_keeps _ _ _ _ ran := by cases ran
  checkEntityInvariants _ := .ok ()
  resolveStateReferences _ := .ok ()
  remoteValue _ _ := none
  emit _ _ _ := []

def plain (name : String) : Attribute Held := ⟨name, "String", false, false, none⟩

def tags : Attribute Held := ⟨"tags", "String", true, false, none⟩

def item : Aggregate Empty Held where
  name := "Item"
  attributes := [plain "sku", plain "title", tags]
  valueObjects := []
  lifecycle := none
  projectedFields := []
  invariants := []

/-- A command that sets these fields from arguments of the same names. -/
def setting (name : String) (fields : List (Attribute Held)) : Command Empty Held where
  name := name
  attributes := fields
  mutations := fields.map fun field => ⟨field.name, .set, .symbol field.name, none⟩
  givens := []
  ensures := []
  admits := none
  emits := []

def holding (fields : List (String × Held)) : Fields Held := fun name =>
  (fields.find? fun field => field.1 == name).map (·.2)

def rename : Dispatch Empty Held :=
  ⟨setting "Rename" [plain "sku", plain "title"],
    holding [("sku", .text "a"), ("title", .text "Lamp")]⟩

def retag : Dispatch Empty Held :=
  ⟨setting "Retag" [tags], holding [("sku", .text "a"), ("tags", .list ["sale"])]⟩

def retitle : Dispatch Empty Held :=
  ⟨setting "Retitle" [plain "title"], holding [("sku", .text "a"), ("title", .text "Desk")]⟩

def pair (first second : Dispatch Empty Held) : Side → Dispatch Empty Held
  | .first => first
  | .second => second

/-- A rename and a new title, which a rename sets as well: whichever writes last decides. -/
theorem rename_and_retitle_lose_nothing :
    strategy item rename.command = some .atomicPut ∧
      NoLostUpdate shop item (pair rename retitle) := by
  refine ⟨by decide, no_lost_update ?_⟩
  intro i j apart atomic args admitted field changed
  cases admitted
  cases i <;> cases j <;> simp only [ne_eq, not_true_eq_false] at apart
  · revert field
    decide
  · exact absurd atomic (by decide)

def lamp : Stored Held :=
  ⟨some (holding [("sku", .text "a"), ("title", .text "Light"), ("tags", .list [])]), []⟩

/-- Both read the item, then the tags are stored, then the name with the tags read before. -/
def interleaved : List (Optimistic.Action Side) :=
  [.read .first, .read .second, .write .second, .write .first]

def tagsOf (stored : Stored Held) : Option Held := stored.record.bind fun fields => fields "tags"

/-- A rename writes the tags it read over the ones another command has stored meanwhile. -/
theorem rename_loses_tags : ¬NoLostUpdate shop item (pair rename retag) := by
  intro claim
  have ended : ((dispatchers shop item (pair rename retag)).run interleaved
      (Optimistic.start lamp 1)).isSome = true := by decide
  obtain ⟨cell, ran⟩ := Option.isSome_iff_exists.mp ended
  have observed : ((dispatchers shop item (pair rename retag)).run interleaved
      (Optimistic.start lamp 1)).map (fun cell => (cell.phase .first).isAccepted &&
        (cell.phase .second).isAccepted && decide (tagsOf cell.value = some (.list []))) =
      some true := by decide
  rw [ran, Option.map_some, Option.some.injEq, Bool.and_eq_true, Bool.and_eq_true,
    decide_eq_true_eq] at observed
  obtain ⟨⟨first, second⟩, old⟩ := observed
  have accepted : ∀ i, cell.phase i = .accepted := by
    intro i
    cases i
    · exact Optimistic.eq_accepted first
    · exact Optimistic.eq_accepted second
  obtain ⟨order, either, account⟩ := claim lamp 1 interleaved cell ran accepted
  have serial : ∀ order, order = [.first, .second] ∨ order = [.second, .first] →
      ((dispatchers shop item (pair rename retag)).serial order lamp).toOption.bind tagsOf =
        some (.list ["sale"]) := by
    rintro order (rfl | rfl) <;> decide
  have new := serial order either
  rw [account] at new
  have same : tagsOf cell.value = some (.list ["sale"]) := new
  rw [old] at same
  cases same

end Hecks.Runtime
