import Hecks.Needs
import Hecks.Routing

/-! A preview asks the kernel whether a command would be accepted. The step built for it and the
step a commit builds are read by two entries of the kernel. -/
namespace Hecks.Host.Preview

/-- Who and when a live step is stamped with. -/
structure Stamp where
  role : Option String
  actorId : Option String
  occurredAt : String

def stamped (stamp : Stamp) (step : List (String × Json)) : Json :=
  .object (step ++ (stamp.role.elim [] fun role => [("role", .str role)]) ++
    (stamp.actorId.elim [] fun actorId => [("actor_id", .str actorId)]) ++
    [("occurred_at", .str stamp.occurredAt)])

def commitStep (verb : String) (args : Json) : List (String × Json) :=
  [("verb", .str verb), ("args", args)]

/-- `preview_step`: `to` and `with` stay at the top of the step, the older mixed shape is taken
apart, flat facts stay under `args`. -/
def previewStep (verb : String) (args : Json) : List (String × Json) :=
  ("dry_run", .str verb) ::
    match args.get "with", args.get "to" with
    | some held, target => (target.elim [] fun target => [("to", target)]) ++ [("with", held)]
    | none, some target =>
        [("to", target), ("with", .object (args.pairs.filter fun f => f.1 ≠ "to"))]
    | none, none => [("args", args)]

def legacyArgs (step : Json) : Json := (step.get "args").getD (.object [])

def commandInput (step : Json) : Json :=
  if (step.get "to").isSome ∨ (step.get "with").isSome then step else legacyArgs step

/-- Where the step names no receiver, its `args` are facts whatever their names. -/
def dryRunInput (step : Json) : Json :=
  if (step.get "to").isSome ∨ (step.get "with").isSome then step
  else .object [("with", legacyArgs step)]

/-- What the generated router does with one verb in one state of the store: how deep its receiver
lies, its argument gates, and what follows them. An object's facts are told apart by name. -/
structure Command where
  argsName : String
  depth : Nat
  gates : Stamp → (String → Option Json) → Except Refusal Unit
  rest : Option RoutingEnvelope → (String → Option Json) → Except Refusal Unit

namespace Command

variable (command : Command) (stamp : Stamp)

/-- Every gate list starts by refusing facts that are no object. `inspect` is left out of the
text. -/
def decode (facts : Json) : Except Refusal Unit :=
  match facts with
  | .object fields => command.gates stamp (Json.object fields).get
  | _ => .error (.typeMismatch (command.argsName ++ " expects an object"))

def requireDepth (route : Option RoutingEnvelope) : Except Refusal Unit :=
  match route with
  | some route => route.requireDepth command.depth
  | none => .ok ()

/-- Facts under `with` are decoded ahead of the route's depth, flat facts after it. -/
def dispatch (input : Json) : Except Refusal Unit := do
  let invocation ← CommandInvocation.fromJson input
  if invocation.explicit then
    command.decode stamp invocation.facts
    command.requireDepth invocation.route
  else
    command.requireDepth invocation.route
    command.decode stamp invocation.facts
  command.rest invocation.route invocation.facts.get

end Command

section

variable {H : Type} (needs : Needs) (host : Host H) (w : H) (command : Command) (verb : String)
  (args : Json) (stamp : Stamp)

/-- The arguments once the kernel has answered what the command needs. -/
def enriched (input : Json) : Json :=
  (needs.enrich host verb input (some stamp.occurredAt) w).1.getD input

/-- The commit of a step: does the kernel accept its own command? -/
def commitAccepts : Bool :=
  (command.dispatch stamp
    (enriched needs host w verb stamp (commandInput (stamped stamp (commitStep verb args))))).isOk

def previewAccepts : Bool :=
  (command.dispatch stamp
    (enriched needs host w verb stamp (dryRunInput (stamped stamp (previewStep verb args))))).isOk

end

/-! ### What the kernel still fills in -/

section Filling

variable {H : Type} (needs : Needs) (host : Host H)

def neededBy (verb : String) : List Need :=
  ((needs.table.find? fun e => e.1 = verb).map (·.2)).getD []

def defaultsOf (verb : String) : List (String × Json) :=
  ((needs.defaults.find? fun e => e.1 = verb).map (·.2)).getD []

def holds (facts : List (String × Json)) (name : String) : Bool := facts.any fun f => f.1 = name

/-- The facts `enrich` fills: the `with` object, else the flat object itself. -/
def heldFacts (args : Json) : Option (List (String × Json)) :=
  match args.get "with", args with
  | some (.object facts), _ => some facts
  | _, .object fields => some fields
  | _, _ => none

/-- Every fact the command needs or defaults is there, as the host leaves it before it builds a
step. -/
def Filled (verb : String) (args : Json) : Prop :=
  ∀ facts, heldFacts args = some facts →
    (∀ need ∈ neededBy needs verb, holds facts need.fact) ∧
    ∀ default ∈ defaultsOf needs verb, holds facts default.1

/-- The kernel answers the facts the language admits, now and today. -/
def ClockOnly (verb : String) : Prop :=
  ∀ need ∈ neededBy needs verb, need.fact = "now" ∨ need.fact = "today"

theorem holds_iff_get {facts : List (String × Json)} {name : String} :
    holds facts name = ((Json.object facts).get name).isSome := by
  induction facts with
  | nil => rfl
  | cons f facts ih =>
    simp only [holds, Json.get, Option.isSome_map] at ih ⊢
    by_cases h : f.1 = name <;> simp [h, ih]

theorem get_append {left right : List (String × Json)} {name : String} :
    (Json.object (left ++ right)).get name =
      ((Json.object left).get name).or ((Json.object right).get name) := by
  simp [Json.get, List.find?_append, Option.map_or]

/-- Needs are answered by appending facts that were not there. -/
theorem fill_appends (occurredAt : Option String) (held : List (String × Json))
    (wanted : List Need) : ∀ (filled : List (String × Json)) (w : H), ∃ added,
      (needs.fill host occurredAt held wanted filled w).1 = filled ++ added ∧
      ∀ f ∈ added, holds held f.1 = false ∧ ∃ need ∈ wanted, need.fact = f.1 := by
  induction wanted with
  | nil => exact fun filled w => ⟨[], by simp [Hecks.Needs.fill]⟩
  | cons need wanted ih =>
    intro filled w
    by_cases hheld : held.any fun f => f.1 = need.fact
    · obtain ⟨added, hadded, hnew⟩ := ih filled w
      refine ⟨added, ?_, ?_⟩
      · simpa [Hecks.Needs.fill, hheld] using hadded
      · intro f hf
        obtain ⟨habsent, other, hother, hfact⟩ := hnew f hf
        exact ⟨habsent, other, List.mem_cons_of_mem _ hother, hfact⟩
    · cases hanswer : needs.answer host need occurredAt w with
      | mk answered w' =>
        cases answered with
        | none =>
          obtain ⟨added, hadded, hnew⟩ := ih filled w'
          refine ⟨added, ?_, ?_⟩
          · simpa [Hecks.Needs.fill, hheld, hanswer] using hadded
          · intro f hf
            obtain ⟨habsent, other, hother, hfact⟩ := hnew f hf
            exact ⟨habsent, other, List.mem_cons_of_mem _ hother, hfact⟩
        | some value =>
          obtain ⟨added, hadded, hnew⟩ := ih (filled ++ [(need.fact, value)]) w'
          refine ⟨(need.fact, value) :: added, ?_, ?_⟩
          · simpa [Hecks.Needs.fill, hheld, hanswer] using hadded
          · intro f hf
            obtain rfl | hf := List.mem_cons.mp hf
            · exact ⟨Bool.eq_false_iff.mpr hheld, need, by simp, rfl⟩
            · obtain ⟨habsent, other, hother, hfact⟩ := hnew f hf
              exact ⟨habsent, other, List.mem_cons_of_mem _ hother, hfact⟩

/-- Defaults are added likewise. -/
theorem fillDefaults_get (defaults : List (String × Json)) :
    ∀ (facts : List (String × Json)) (name : String),
      (Json.object (Hecks.Needs.fillDefaults defaults facts)).get name =
        ((Json.object facts).get name).or ((Json.object defaults).get name) := by
  induction defaults with
  | nil => intro facts name; simp [Hecks.Needs.fillDefaults, Json.get]
  | cons default defaults ih =>
    intro facts name
    obtain ⟨key, value⟩ := default
    have tail : (Json.object ((key, value) :: defaults)).get name =
        if key = name then some value else (Json.object defaults).get name := by
      by_cases h : key = name <;> simp [Json.get, h]
    have one : (Json.object [(key, value)]).get name = if key = name then some value else none := by
      by_cases h : key = name <;> simp [Json.get, h]
    have here : (facts.any fun f => f.1 = key) = ((Json.object facts).get key).isSome :=
      holds_iff_get
    rw [Hecks.Needs.fillDefaults, ih, tail, here]
    cases hheld : (Json.object facts).get key with
    | some old =>
      by_cases h : key = name
      · subst h
        simp [hheld]
      · simp [h]
    | none =>
      by_cases h : key = name
      · subst h
        simp [get_append, one, hheld]
      · simp [get_append, one, h]

variable (verb : String) (stamp : Stamp) (w : H)

/-- Facts with everything the kernel can fill in. -/
def filledFacts (held : List (String × Json)) : List (String × Json) :=
  Hecks.Needs.fillDefaults (defaultsOf needs verb)
    (needs.fill host (some stamp.occurredAt) held (neededBy needs verb) held w).1

variable {needs verb}

theorem filledFacts_get (held : List (String × Json)) : ∃ added : List (String × Json),
    (∀ f ∈ added, ∃ need ∈ neededBy needs verb, need.fact = f.1) ∧
    ∀ name, (Json.object (filledFacts needs host verb stamp w held)).get name =
      (((Json.object held).get name).or ((Json.object added).get name)).or
        ((Json.object (defaultsOf needs verb)).get name) := by
  obtain ⟨added, hadded, hnew⟩ :=
    fill_appends needs host (some stamp.occurredAt) held (neededBy needs verb) held w
  refine ⟨added, fun f hf => (hnew f hf).2, ?_⟩
  intro name
  rw [filledFacts, hadded, fillDefaults_get, get_append]

variable {host stamp w}

/-- A fact that is there stays as it is. -/
theorem filledFacts_keeps {held : List (String × Json)} {name : String} {value : Json}
    (h : (Json.object held).get name = some value) :
    (Json.object (filledFacts needs host verb stamp w held)).get name = some value := by
  obtain ⟨added, -, hget⟩ := filledFacts_get host stamp w held
  rw [hget, h, Option.some_or, Option.some_or]

/-- A name the clock does not answer gets its default. -/
theorem filledFacts_default {held : List (String × Json)} {name : String}
    (clockOnly : ClockOnly needs verb) (now : name ≠ "now") (today : name ≠ "today")
    (h : (Json.object held).get name = none) :
    (Json.object (filledFacts needs host verb stamp w held)).get name =
      (Json.object (defaultsOf needs verb)).get name := by
  obtain ⟨added, hadded, hget⟩ := filledFacts_get host stamp w held
  have unanswered : (Json.object added).get name = none := by
    cases hvalue : (Json.object added).get name with
    | none => rfl
    | some value =>
      simp only [Json.get, Option.map_eq_some_iff] at hvalue
      obtain ⟨f, hf, -⟩ := hvalue
      have hname : f.1 = name := by simpa using List.find?_some hf
      obtain ⟨need, hneed, hfact⟩ := hadded f (List.mem_of_find?_eq_some hf)
      have := clockOnly need hneed
      rw [hfact, hname] at this
      exact absurd this (by simp [now, today])
  rw [hget, h, unanswered, Option.none_or, Option.none_or]

theorem fillDefaults_of_holds (defaults : List (String × Json)) {facts : List (String × Json)}
    (h : ∀ default ∈ defaults, holds facts default.1) :
    Hecks.Needs.fillDefaults defaults facts = facts := by
  induction defaults with
  | nil => rfl
  | cons default defaults ih =>
    have here := h default (by simp)
    rw [holds] at here
    rw [Hecks.Needs.fillDefaults, if_pos here]
    exact ih fun d hd => h d (List.mem_cons_of_mem _ hd)

theorem filledFacts_of_filled {held : List (String × Json)}
    (needed : ∀ need ∈ neededBy needs verb, holds held need.fact)
    (defaulted : ∀ default ∈ defaultsOf needs verb, holds held default.1) :
    filledFacts needs host verb stamp w held = held := by
  obtain ⟨added, hadded, hnew⟩ :=
    fill_appends needs host (some stamp.occurredAt) held (neededBy needs verb) held w
  have hnil : added = [] := by
    rw [List.eq_nil_iff_forall_not_mem]
    intro f hf
    obtain ⟨habsent, need, hneed, hfact⟩ := hnew f hf
    have := needed need hneed
    rw [hfact, habsent] at this
    cases this
  rw [filledFacts, hadded, hnil, List.append_nil]
  exact fillDefaults_of_holds _ defaulted

/-- An envelope with another value under one key. -/
def replaced (key : String) (value : Json) (fields : List (String × Json)) :
    List (String × Json) :=
  fields.map fun (k, v) => if k = key then (k, value) else (k, v)

theorem get_replaced {key : String} {old : Json} {fields : List (String × Json)}
    (h : (Json.object fields).get key = some old) (value : Json) :
    (Json.object (replaced key value fields)).get key = some value := by
  induction fields with
  | nil => simp [Json.get] at h
  | cons f fields ih =>
    by_cases hf : f.1 = key
    · simp [replaced, Json.get, hf]
    · have tail : (Json.object fields).get key = some old := by simpa [Json.get, hf] using h
      simpa [replaced, Json.get, hf] using ih tail

theorem get_replaced_of_ne {key name : String} (h : name ≠ key) (value : Json)
    (fields : List (String × Json)) :
    (Json.object (replaced key value fields)).get name = (Json.object fields).get name := by
  induction fields with
  | nil => rfl
  | cons f fields ih =>
    simp only [replaced, Json.get, List.map_cons] at ih ⊢
    by_cases hf : f.1 = key
    · have : f.1 ≠ name := fun hn => h (hn ▸ hf)
      have hkey : key ≠ name := fun hn => h hn.symm
      simpa [hf, hkey] using ih
    · by_cases hn : f.1 = name
      · simp [hf, hn]
        simp [show name ≠ key from h]
      · simpa [hf, hn] using ih

theorem keys_replaced (key : String) (value : Json) (fields : List (String × Json)) :
    (replaced key value fields).map Prod.fst = fields.map Prod.fst := by
  induction fields with
  | nil => rfl
  | cons f fields ih =>
    simp only [replaced, List.map_cons] at ih ⊢
    by_cases hf : f.1 = key <;> simp [hf, ih]

theorem fillDefaults_appends (defaults facts : List (String × Json)) :
    ∃ added, Hecks.Needs.fillDefaults defaults facts = facts ++ added := by
  induction defaults generalizing facts with
  | nil => exact ⟨[], by simp [Hecks.Needs.fillDefaults]⟩
  | cons default defaults ih =>
    obtain ⟨key, value⟩ := default
    by_cases h : facts.any fun f => f.1 = key
    · obtain ⟨added, hadded⟩ := ih facts
      exact ⟨added, by rw [Hecks.Needs.fillDefaults, if_pos h, hadded]⟩
    · obtain ⟨added, hadded⟩ := ih (facts ++ [(key, value)])
      exact ⟨(key, value) :: added, by rw [Hecks.Needs.fillDefaults, if_neg h, hadded]; simp⟩

/-- Where there is nothing to fill, filling changes nothing. -/
theorem filledFacts_of_nothing {held : List (String × Json)}
    (h : (neededBy needs verb).isEmpty ∧ (defaultsOf needs verb).isEmpty) :
    filledFacts needs host verb stamp w held = held := by
  rw [List.isEmpty_iff, List.isEmpty_iff] at h
  apply filledFacts_of_filled <;> simp [h]

theorem filledFacts_of_length {held : List (String × Json)}
    (h : (filledFacts needs host verb stamp w held).length = held.length) :
    filledFacts needs host verb stamp w held = held := by
  obtain ⟨added, hadded, -⟩ :=
    fill_appends needs host (some stamp.occurredAt) held (neededBy needs verb) held w
  obtain ⟨more, hmore⟩ := fillDefaults_appends (defaultsOf needs verb) (held ++ added)
  rw [filledFacts, hadded, hmore] at h ⊢
  have : added = [] ∧ more = [] := by
    simp only [List.length_append] at h
    constructor <;> apply List.eq_nil_of_length_eq_zero <;> omega
  simp [this]

/-- An object whose `with` is no object is filled itself. -/
theorem enriched_flat {fields : List (String × Json)}
    (flat : ∀ facts, (Json.object fields).get "with" ≠ some (.object facts)) :
    enriched needs host w verb stamp (.object fields) =
      .object (filledFacts needs host verb stamp w fields) := by
  simp only [enriched, Hecks.Needs.enrich]
  split
  · rename_i nothing
    rw [filledFacts_of_nothing nothing]
    rfl
  · split
    · rename_i same
      rw [filledFacts_of_length same]
      rfl
    · rfl

/-- An object that carries its facts under `with` is filled there, and nowhere else. -/
theorem enriched_explicit {fields held : List (String × Json)}
    (explicit : (Json.object fields).get "with" = some (.object held)) :
    ∃ filled, enriched needs host w verb stamp (.object fields) = .object filled ∧
      (Json.object filled).get "with" =
        some (.object (filledFacts needs host verb stamp w held)) ∧
      (∀ name, name ≠ "with" → (Json.object filled).get name = (Json.object fields).get name) ∧
      filled.map Prod.fst = fields.map Prod.fst := by
  simp only [enriched, Hecks.Needs.enrich, explicit]
  split
  · rename_i nothing
    rw [filledFacts_of_nothing nothing]
    exact ⟨fields, rfl, explicit, fun _ _ => rfl, rfl⟩
  · split
    · rename_i same
      rw [filledFacts_of_length same]
      exact ⟨fields, rfl, explicit, fun _ _ => rfl, rfl⟩
    · exact ⟨_, rfl, get_replaced explicit _, fun _ h => get_replaced_of_ne h _ _,
        keys_replaced _ _ _⟩

theorem enriched_other {args : Json} (h : heldFacts args = none) :
    enriched needs host w verb stamp args = args := by
  cases args with
  | object fields => 
    simp only [heldFacts] at h
    split at h <;> simp_all
  | _ => simp [enriched, Hecks.Needs.enrich, Json.get]

end Filling

/-! ### What the kernel reads an input as -/

/-- The route and the facts of an input, unless it is refused as an invocation or its facts are
no object. -/
def reading (input : Json) : Option (Option RoutingEnvelope × (String → Option Json)) :=
  match CommandInvocation.fromJson input with
  | .error _ => none
  | .ok invocation =>
      match invocation.facts with
      | .object fields => some (invocation.route, (Json.object fields).get)
      | _ => none

/-- A command accepts an input by its reading alone: the order of the gates tells refusals apart,
not what is accepted. -/
theorem dispatch_isOk_iff (command : Command) (stamp : Stamp) (input : Json) :
    (command.dispatch stamp input).isOk = true ↔
      ∃ route facts, reading input = some (route, facts) ∧
        command.requireDepth route = .ok () ∧ command.gates stamp facts = .ok () ∧
        command.rest route facts = .ok () := by
  unfold Command.dispatch reading
  cases CommandInvocation.fromJson input with
  | error refusal => simp [Bind.bind, Except.bind, Except.isOk, Except.toBool]
  | ok invocation =>
    obtain ⟨route, facts, explicit⟩ := invocation
    simp only [Bind.bind, Except.bind]
    cases facts with
    | object fields =>
      simp only [Command.decode]
      cases explicit <;> cases hdepth : command.requireDepth route <;>
        cases hgates : command.gates stamp (Json.object fields).get <;>
        cases hrest : command.rest route (Json.object fields).get <;>
        simp_all [Except.isOk, Except.toBool]
    | _ =>
      simp only [Command.decode]
      cases explicit <;> cases command.requireDepth route <;>
        simp [Except.isOk, Except.toBool]

section Reading

variable {input : Json} {fields : List (String × Json)}

def routed (target : Option Json) (facts : String → Option Json) :
    Option (Option RoutingEnvelope × (String → Option Json)) :=
  (readRoute (nonNull target)).toOption.map fun route => (route, facts)

theorem get_strip (fields : List (String × Json)) (name : String) :
    (stripRoutingKeys (.object fields)).get name =
      if name = "to" ∨ name = "with" then none else (Json.object fields).get name := by
  induction fields with
  | nil => simp [stripRoutingKeys, Json.get]
  | cons f fields ih =>
    simp only [stripRoutingKeys, Json.get, List.filter_cons] at ih ⊢
    by_cases hname : f.1 = name
    · subst hname
      by_cases hf : f.1 = "to" ∨ f.1 = "with"
      · have : ¬(f.1 ≠ "to" ∧ f.1 ≠ "with") := by grind
        simpa [this, hf] using ih
      · have : f.1 ≠ "to" ∧ f.1 ≠ "with" := by grind
        simp [this]
    · by_cases hf : f.1 ≠ "to" ∧ f.1 ≠ "with" <;> simpa [hf, hname] using ih

theorem reading_flat (flat : nonNull ((Json.object fields).get "with") = none) :
    reading (.object fields) =
      routed ((Json.object fields).get "to") (stripRoutingKeys (.object fields)).get := by
  unfold reading CommandInvocation.fromJson routed
  simp only [flat]
  cases readRoute (nonNull ((Json.object fields).get "to")) with
  | error refusal => rfl
  | ok route => rfl

theorem loose_of_args (h : (input.get "args").isSome) : hasLooseFact input = true := by
  cases input with
  | object fields =>
    simp only [Json.get, Option.isSome_map, List.find?_isSome] at h
    obtain ⟨f, hf, hname⟩ := h
    simp only [hasLooseFact, Json.pairs, List.any_eq_true]
    refine ⟨f, hf, ?_⟩
    have : f.1 = "args" := by simpa using hname
    rw [this]
    decide
  | _ => simp [Json.get] at h

theorem reading_explicit {held : List (String × Json)}
    (explicit : input.get "with" = some (.object held)) :
    reading input =
      if hasLooseFact input then none
      else routed (input.get "to") (Json.object held).get := by
  unfold reading CommandInvocation.fromJson routed
  simp only [explicit, nonNull]
  by_cases hargs : (input.get "args").isSome
  · simp [hargs, loose_of_args hargs]
  · by_cases hloose : hasLooseFact input
    · simp [hargs, hloose]
    · simp only [hargs, hloose, Bool.false_eq_true, if_false]
      cases readRoute _ with
      | error refusal => rfl
      | ok route => rfl

/-- Facts under `with` that are no object are refused. -/
theorem reading_of_bad_with {held : Json} (explicit : input.get "with" = some held)
    (notNull : held ≠ .null) (notObject : ∀ facts, held ≠ .object facts) :
    reading input = none := by
  have hheld : nonNull (some held) = some held := by
    cases held <;> first | rfl | exact absurd rfl notNull
  unfold reading CommandInvocation.fromJson
  simp only [explicit, hheld]
  split
  · rfl
  · rename_i invocation hread
    split at hread
    · cases hread
    · split at hread
      · cases hread
      · cases hroute : readRoute (nonNull (input.get "to")) with
        | error refusal =>
          rw [hroute] at hread
          cases hread
        | ok route =>
          rw [hroute] at hread
          cases held with
          | object facts => exact absurd rfl (notObject facts)
          | _ => cases hread

theorem reading_of_no_object (h : ∀ fields, input ≠ .object fields) : reading input = none := by
  cases input with
  | object fields => exact absurd rfl (h fields)
  | _ => rfl

end Reading

/-! ### The two steps -/

section Steps

variable (stamp : Stamp) (verb : String) (args : Json)

/-- What the host stamps a step with stands under three names. -/
theorem stamped_get (step : List (String × Json)) {name : String} (role : name ≠ "role")
    (actor : name ≠ "actor_id") (moment : name ≠ "occurred_at") :
    (stamped stamp step).get name = (Json.object step).get name := by
  have roles : (Json.object (stamp.role.elim [] fun role => [("role", .str role)])).get name =
      none := by
    cases stamp.role <;> simp [Json.get, role.symm]
  have actors : (Json.object (stamp.actorId.elim [] fun id => [("actor_id", .str id)])).get name =
      none := by
    cases stamp.actorId <;> simp [Json.get, actor.symm]
  have moments : (Json.object [("occurred_at", .str stamp.occurredAt)]).get name = none := by
    simp [Json.get, moment.symm]
  simp only [stamped, get_append, roles, actors, moments, Option.or_none]

theorem stamped_occurredAt {step : List (String × Json)}
    (h : (Json.object step).get "occurred_at" = none) :
    (stamped stamp step).get "occurred_at" = some (.str stamp.occurredAt) := by
  have roles : (Json.object (stamp.role.elim [] fun role => [("role", .str role)])).get
      "occurred_at" = none := by
    cases stamp.role <;> simp [Json.get]
  have actors : (Json.object (stamp.actorId.elim [] fun id => [("actor_id", .str id)])).get
      "occurred_at" = none := by
    cases stamp.actorId <;> simp [Json.get]
  have moments : (Json.object [("occurred_at", .str stamp.occurredAt)]).get "occurred_at" =
      some (.str stamp.occurredAt) := by
    simp [Json.get]
  simp only [stamped, get_append, roles, actors, moments, h, Option.none_or]

theorem stamped_eq_object (step : List (String × Json)) :
    ∃ fields, stamped stamp step = .object fields := ⟨_, rfl⟩

/-- A commit's step hands the arguments over as they are. -/
theorem commandInput_commitStep :
    commandInput (stamped stamp (commitStep verb args)) = args := by
  have target : (stamped stamp (commitStep verb args)).get "to" = none := by
    rw [stamped_get _ _ (by decide) (by decide) (by decide)]
    simp [commitStep, Json.get]
  have held : (stamped stamp (commitStep verb args)).get "with" = none := by
    rw [stamped_get _ _ (by decide) (by decide) (by decide)]
    simp [commitStep, Json.get]
  have legacy : (stamped stamp (commitStep verb args)).get "args" = some args := by
    rw [stamped_get _ _ (by decide) (by decide) (by decide)]
    simp [commitStep, Json.get]
  simp [commandInput, target, held, legacyArgs, legacy]

/-- A preview of flat facts has the kernel put them under `with`. -/
theorem dryRunInput_of_flat (held : args.get "with" = none) (target : args.get "to" = none) :
    dryRunInput (stamped stamp (previewStep verb args)) = .object [("with", args)] := by
  have step : previewStep verb args = [("dry_run", .str verb), ("args", args)] := by
    simp [previewStep, held, target]
  have hto : (stamped stamp (previewStep verb args)).get "to" = none := by
    rw [stamped_get _ _ (by decide) (by decide) (by decide), step]
    simp [Json.get]
  have hwith : (stamped stamp (previewStep verb args)).get "with" = none := by
    rw [stamped_get _ _ (by decide) (by decide) (by decide), step]
    simp [Json.get]
  have hargs : (stamped stamp (previewStep verb args)).get "args" = some args := by
    rw [stamped_get _ _ (by decide) (by decide) (by decide), step]
    simp [Json.get]
  simp [dryRunInput, hto, hwith, legacyArgs, hargs]

variable {verb args}

/-- A preview of arguments with `with` is read as its step. -/
theorem previewStep_of_with {held : Json} (h : args.get "with" = some held) :
    dryRunInput (stamped stamp (previewStep verb args)) = stamped stamp (previewStep verb args) ∧
      (stamped stamp (previewStep verb args)).get "with" = some held ∧
      (stamped stamp (previewStep verb args)).get "to" = args.get "to" ∧
      hasLooseFact (stamped stamp (previewStep verb args)) = false ∧
      (stamped stamp (previewStep verb args)).get "occurred_at" =
        some (.str stamp.occurredAt) := by
  have step : previewStep verb args = ("dry_run", .str verb) ::
      (((args.get "to").elim [] fun target => [("to", target)]) ++ [("with", held)]) := by
    simp only [previewStep, h]
  rw [step]
  have hwith : (stamped stamp (("dry_run", .str verb) ::
      (((args.get "to").elim [] fun target => [("to", target)]) ++ [("with", held)]))).get
        "with" = some held := by
    rw [stamped_get _ _ (by decide) (by decide) (by decide)]
    cases args.get "to" <;> simp [Json.get]
  refine ⟨?_, hwith, ?_, ?_, ?_⟩
  · simp [dryRunInput, hwith]
  · rw [stamped_get _ _ (by decide) (by decide) (by decide)]
    cases args.get "to" <;> simp [Json.get]
  · cases args.get "to" <;> cases hrole : stamp.role <;> cases hactor : stamp.actorId <;>
      simp [stamped, hrole, hactor, hasLooseFact, Json.pairs, stepEnvelopeKeys]
  · apply stamped_occurredAt
    cases args.get "to" <;> simp [Json.get]

/-- A preview of the mixed shape carries the facts under `with`, the receiver beside them. -/
theorem previewStep_of_mixed {target : Json} (held : args.get "with" = none)
    (h : args.get "to" = some target) :
    dryRunInput (stamped stamp (previewStep verb args)) = stamped stamp (previewStep verb args) ∧
      (stamped stamp (previewStep verb args)).get "with" =
        some (.object (args.pairs.filter fun f => f.1 ≠ "to")) ∧
      (stamped stamp (previewStep verb args)).get "to" = some target ∧
      hasLooseFact (stamped stamp (previewStep verb args)) = false := by
  have step : previewStep verb args = [("dry_run", .str verb), ("to", target),
      ("with", .object (args.pairs.filter fun f => f.1 ≠ "to"))] := by
    simp only [previewStep, held, h]
  rw [step]
  have hwith : (stamped stamp [("dry_run", .str verb), ("to", target),
      ("with", .object (args.pairs.filter fun f => f.1 ≠ "to"))]).get "with" =
        some (.object (args.pairs.filter fun f => f.1 ≠ "to")) := by
    rw [stamped_get _ _ (by decide) (by decide) (by decide)]
    simp [Json.get]
  refine ⟨?_, hwith, ?_, ?_⟩
  · rw [dryRunInput, if_pos (.inr (by rw [hwith]; rfl))]
  · rw [stamped_get _ _ (by decide) (by decide) (by decide)]
    simp [Json.get]
  · cases hrole : stamp.role <;> cases hactor : stamp.actorId <;>
      simp [stamped, hrole, hactor, hasLooseFact, Json.pairs, stepEnvelopeKeys]

end Steps

/-! ### Where the two readings agree -/

/-- The receiver is refused as a route. -/
def RouteRefused (target : Option Json) : Prop :=
  ∃ refusal, readRoute (nonNull target) = .error refusal

/-- The arguments both entries of the kernel read alike. -/
def ReadAlike (needs : Needs) (verb : String) (args : Json) : Prop :=
  match args with
  | .object fields =>
      match (Json.object fields).get "with", (Json.object fields).get "to" with
      | some .null, target => RouteRefused target
      | some (.object _), target => RouteRefused target ∨ hasLooseFact args = false
      | some _, _ => True
      | none, some target =>
          RouteRefused (some target) ∨ (Json.object (defaultsOf needs verb)).get "to" = none
      | none, none => True
  | .null => RouteRefused ((Json.object (defaultsOf needs verb)).get "to")
  | _ => True

section Agreement

variable {H : Type} {needs : Needs} {host : Host H} {verb : String} {stamp : Stamp} {w : H}
  {fields : List (String × Json)}

theorem routed_of_refused {target : Option Json} (h : RouteRefused target)
    (facts : String → Option Json) : routed target facts = none := by
  obtain ⟨refusal, hrefusal⟩ := h
  rw [routed, hrefusal]
  rfl

theorem routed_of_not_refused {target : Option Json} (h : ¬ RouteRefused target) :
    ∃ route, ∀ facts, routed target facts = some (route, facts) := by
  cases hroute : readRoute (nonNull target) with
  | error refusal => exact absurd ⟨refusal, hroute⟩ h
  | ok route => exact ⟨route, fun facts => by rw [routed, hroute]; rfl⟩

theorem heldFacts_flat (flat : ∀ facts, (Json.object fields).get "with" ≠ some (.object facts)) :
    heldFacts (.object fields) = some fields := by
  unfold heldFacts
  split
  · rename_i facts hwith
    exact absurd hwith (flat facts)
  · rename_i same _
    cases same
    rfl
  · rename_i other
    exact absurd rfl (other fields)

theorem filledFacts_of_flat (filled : Filled needs verb (.object fields))
    (flat : ∀ facts, (Json.object fields).get "with" ≠ some (.object facts)) :
    filledFacts needs host verb stamp w fields = fields := by
  obtain ⟨needed, defaulted⟩ := filled fields (heldFacts_flat flat)
  exact filledFacts_of_filled needed defaulted

theorem reading_enriched_explicit {held : List (String × Json)}
    (explicit : (Json.object fields).get "with" = some (.object held)) :
    reading (enriched needs host w verb stamp (.object fields)) =
      if hasLooseFact (.object fields) then none
      else routed ((Json.object fields).get "to")
        (Json.object (filledFacts needs host verb stamp w held)).get := by
  obtain ⟨filled, henriched, hwith, hother, hkeys⟩ :=
    @enriched_explicit _ needs host verb stamp w _ _ explicit
  have loose : hasLooseFact (.object filled) = hasLooseFact (.object fields) := by
    have any_keys : ∀ list : List (String × Json), hasLooseFact (.object list) =
        (list.map Prod.fst).any fun k => k ≠ "to" ∧ k ≠ "with" ∧ k ∉ stepEnvelopeKeys := by
      intro list
      simp [hasLooseFact, Json.pairs, List.any_map, Function.comp_def]
    rw [any_keys, any_keys, hkeys]
  rw [henriched, reading_explicit hwith, loose, hother "to" (by decide)]

/-- With `with` null the object itself is read, and its null stays null. -/
theorem reading_enriched_null (null : (Json.object fields).get "with" = some .null) :
    reading (enriched needs host w verb stamp (.object fields)) =
      routed ((Json.object (filledFacts needs host verb stamp w fields)).get "to")
        (stripRoutingKeys (.object (filledFacts needs host verb stamp w fields))).get := by
  rw [enriched_flat (by simp [null])]
  apply reading_flat
  rw [filledFacts_keeps null]
  rfl

theorem reading_enriched_bad {held : Json} (explicit : (Json.object fields).get "with" = some held)
    (notNull : held ≠ .null) (notObject : ∀ facts, held ≠ .object facts) :
    reading (enriched needs host w verb stamp (.object fields)) = none := by
  rw [enriched_flat (by simp [explicit, notObject])]
  exact reading_of_bad_with (filledFacts_keeps explicit) notNull notObject

theorem get_filter_ne (name : String) :
    (Json.object (fields.filter fun f => f.1 ≠ "to")).get name =
      if name = "to" then none else (Json.object fields).get name := by
  induction fields with
  | nil => simp [Json.get]
  | cons f fields ih =>
    simp only [Json.get, List.filter_cons] at ih ⊢
    by_cases hname : f.1 = name
    · subst hname
      by_cases hf : f.1 = "to" <;> simp [hf]
    · by_cases hf : f.1 = "to"
      · have : "to" ≠ name := hf ▸ hname
        simpa [hf, this] using ih
      · simpa [hf, hname] using ih

/-! What the two entries read, shape by shape. -/

variable (host stamp w)

theorem commit_reads_explicit {held : List (String × Json)}
    (filled : Filled needs verb (.object fields))
    (explicit : (Json.object fields).get "with" = some (.object held)) :
    reading (enriched needs host w verb stamp (.object fields)) =
      if hasLooseFact (.object fields) then none
      else routed ((Json.object fields).get "to") (Json.object held).get := by
  obtain ⟨needed, defaulted⟩ := filled held (by simp [heldFacts, explicit])
  rw [reading_enriched_explicit explicit, filledFacts_of_filled needed defaulted]

theorem preview_reads_explicit {held : List (String × Json)}
    (filled : Filled needs verb (.object fields))
    (explicit : (Json.object fields).get "with" = some (.object held)) :
    reading (enriched needs host w verb stamp
        (dryRunInput (stamped stamp (previewStep verb (.object fields))))) =
      routed ((Json.object fields).get "to") (Json.object held).get := by
  obtain ⟨needed, defaulted⟩ := filled held (by simp [heldFacts, explicit])
  obtain ⟨hinput, hwith, hto, hloose, -⟩ := @previewStep_of_with stamp verb _ _ explicit
  obtain ⟨step, hstep⟩ := stamped_eq_object stamp (previewStep verb (.object fields))
  rw [hinput]
  rw [hstep] at hwith hto hloose ⊢
  rw [reading_enriched_explicit hwith, hloose, hto, filledFacts_of_filled needed defaulted]
  rfl

/-- Without an object under `with`, a commit reads the arguments themselves. -/
theorem commit_reads_flat (filled : Filled needs verb (.object fields))
    (flat : nonNull ((Json.object fields).get "with") = none) :
    reading (enriched needs host w verb stamp (.object fields)) =
      routed ((Json.object fields).get "to") (stripRoutingKeys (.object fields)).get := by
  have notObject : ∀ facts, (Json.object fields).get "with" ≠ some (.object facts) := by
    intro facts h
    rw [h] at flat
    cases flat
  rw [enriched_flat notObject, filledFacts_of_flat filled notObject, reading_flat flat]

/-- A null under `with` hides the facts from the preview: it reads the keys of its own step. -/
theorem preview_reads_null (clockOnly : ClockOnly needs verb)
    (filled : Filled needs verb (.object fields))
    (null : (Json.object fields).get "with" = some .null) : ∃ facts,
    reading (enriched needs host w verb stamp
        (dryRunInput (stamped stamp (previewStep verb (.object fields))))) =
      routed ((Json.object fields).get "to") facts ∧
    facts "occurred_at" = some (.str stamp.occurredAt) := by
  obtain ⟨hinput, hwith, hto, -, hmoment⟩ := @previewStep_of_with stamp verb _ _ null
  obtain ⟨step, hstep⟩ := stamped_eq_object stamp (previewStep verb (.object fields))
  rw [hinput]
  rw [hstep] at hwith hto hmoment ⊢
  rw [reading_enriched_null hwith]
  refine ⟨(stripRoutingKeys (.object (filledFacts needs host verb stamp w step))).get, ?_, ?_⟩
  · congr 1
    cases htarget : (Json.object fields).get "to" with
    | some target =>
      rw [htarget] at hto
      exact filledFacts_keeps hto
    | none =>
      rw [htarget] at hto
      rw [filledFacts_default clockOnly (by decide) (by decide) hto]
      -- a default for `to` would stand in the arguments already
      obtain ⟨-, defaulted⟩ := filled fields (heldFacts_flat (by simp [null]))
      cases hdefault : (Json.object (defaultsOf needs verb)).get "to" with
      | none => rfl
      | some default =>
        simp only [Json.get, Option.map_eq_some_iff] at hdefault
        obtain ⟨f, hf, -⟩ := hdefault
        have hname : f.1 = "to" := by simpa using List.find?_some hf
        have := defaulted f (List.mem_of_find?_eq_some hf)
        rw [hname, holds_iff_get, htarget] at this
        cases this
  · rw [get_strip, if_neg (by decide)]
    exact filledFacts_keeps hmoment

theorem preview_reads_mixed {target : Json}
    (absent : (Json.object fields).get "with" = none)
    (htarget : (Json.object fields).get "to" = some target) :
    reading (enriched needs host w verb stamp
        (dryRunInput (stamped stamp (previewStep verb (.object fields))))) =
      routed (some target) (Json.object (filledFacts needs host verb stamp w
        (fields.filter fun f => f.1 ≠ "to"))).get := by
  obtain ⟨hinput, hwith, hto, hloose⟩ := @previewStep_of_mixed stamp verb _ _ absent htarget
  obtain ⟨step, hstep⟩ := stamped_eq_object stamp (previewStep verb (.object fields))
  rw [hinput]
  rw [hstep] at hwith hto hloose ⊢
  rw [reading_enriched_explicit hwith, hloose, hto]
  rfl

/-- Of the mixed shape only `to` is not among the facts. -/
theorem mixed_filled (clockOnly : ClockOnly needs verb)
    (filled : Filled needs verb (.object fields))
    (absent : (Json.object fields).get "with" = none)
    (noDefault : (Json.object (defaultsOf needs verb)).get "to" = none) :
    filledFacts needs host verb stamp w (fields.filter fun f => f.1 ≠ "to") =
      fields.filter fun f => f.1 ≠ "to" := by
  obtain ⟨needed, defaulted⟩ := filled fields (heldFacts_flat (by simp [absent]))
  have stays : ∀ name, name ≠ "to" → holds fields name →
      holds (fields.filter fun f => f.1 ≠ "to") name := by
    intro name hname hheld
    rw [holds_iff_get] at hheld ⊢
    rwa [get_filter_ne, if_neg hname]
  apply filledFacts_of_filled
  · intro need hneed
    apply stays _ _ (needed need hneed)
    obtain h | h := clockOnly need hneed <;> rw [h] <;> decide
  · intro default hdefault
    apply stays _ _ (defaulted default hdefault)
    intro hname
    simp only [Json.get, Option.map_eq_none_iff, List.find?_eq_none] at noDefault
    exact noDefault default hdefault (by simpa using hname)

theorem preview_reads_plain (filled : Filled needs verb (.object fields))
    (absent : (Json.object fields).get "with" = none)
    (noTarget : (Json.object fields).get "to" = none) :
    reading (enriched needs host w verb stamp
        (dryRunInput (stamped stamp (previewStep verb (.object fields))))) =
      routed none (Json.object fields).get := by
  have explicit : (Json.object [("with", Json.object fields)]).get "with" =
      some (.object fields) := by
    simp [Json.get]
  have loose : hasLooseFact (.object [("with", Json.object fields)]) = false := by
    simp [hasLooseFact, Json.pairs]
  have target : (Json.object [("with", Json.object fields)]).get "to" = none := by
    simp [Json.get]
  rw [dryRunInput_of_flat _ _ _ absent noTarget, reading_enriched_explicit explicit, loose, target,
    filledFacts_of_flat filled (by simp [absent])]
  rfl

/-! ### Commands that tell two readings apart -/

variable {host stamp w}

/-- A command at the depth of a route that accepts what facts pass a test. -/
noncomputable def welcoming (route : Option RoutingEnvelope)
    (admits : (String → Option Json) → Prop) : Command :=
  haveI := Classical.decPred admits
  { argsName := "Args"
    depth := route.elim 0 fun route => route.entities.length
    gates := fun _ facts => if admits facts then .ok () else .error (.fault "not admitted")
    rest := fun _ _ => .ok () }

theorem welcoming_accepts {route : Option RoutingEnvelope}
    {admits : (String → Option Json) → Prop} {input : Json} {facts : String → Option Json}
    (h : reading input = some (route, facts)) :
    ((welcoming route admits).dispatch stamp input).isOk = true ↔ admits facts := by
  have depth : (welcoming route admits).requireDepth route = .ok () := by
    cases route with
    | none => rfl
    | some route => simp [Command.requireDepth, welcoming, RoutingEnvelope.requireDepth]
  rw [dispatch_isOk_iff]
  constructor
  · rintro ⟨route', facts', hreading, -, hgates, -⟩
    rw [h] at hreading
    cases hreading
    by_contra hnot
    simp [welcoming, hnot] at hgates
  · intro hadmits
    exact ⟨route, facts, h, depth, by simp [welcoming, hadmits], rfl⟩

theorem refused_of_unread (command : Command) {input : Json} (h : reading input = none) :
    (command.dispatch stamp input).isOk = false := by
  rw [Bool.eq_false_iff, Ne, dispatch_isOk_iff, h]
  simp

theorem accepts_of_same_reading (command : Command) {left right : Json}
    (h : reading left = reading right) :
    (command.dispatch stamp left).isOk = (command.dispatch stamp right).isOk := by
  rw [Bool.eq_iff_iff, dispatch_isOk_iff, dispatch_isOk_iff, h]

/-- A preview accepts a command exactly when its commit would, whatever the command does. -/
def Agrees (needs : Needs) (host : Host H) (w : H) (verb : String) (args : Json) : Prop :=
  ∀ command stamp, previewAccepts needs host w command verb args stamp =
    commitAccepts needs host w command verb args stamp

theorem agrees_of_same_reading {args : Json}
    (h : ∀ stamp, reading (enriched needs host w verb stamp
        (dryRunInput (stamped stamp (previewStep verb args)))) =
      reading (enriched needs host w verb stamp args)) : Agrees needs host w verb args := by
  intro command stamp
  rw [previewAccepts, commitAccepts, commandInput_commitStep]
  exact accepts_of_same_reading command (h stamp)

/-- What a preview reads and a commit refuses parts the two. -/
theorem not_agrees_of_unread {args : Json} {stamp : Stamp} {route : Option RoutingEnvelope}
    {facts : String → Option Json}
    (preview : reading (enriched needs host w verb stamp
      (dryRunInput (stamped stamp (previewStep verb args)))) = some (route, facts))
    (commit : reading (enriched needs host w verb stamp args) = none) :
    ¬ Agrees needs host w verb args := by
  intro agrees
  have same := agrees (welcoming route fun _ => True) stamp
  rw [previewAccepts, commitAccepts, commandInput_commitStep,
    (welcoming_accepts preview).mpr trivial, refused_of_unread _ commit] at same
  cases same

/-- So do facts that both read, and read with a difference. -/
theorem not_agrees_of_facts {args : Json} {stamp : Stamp} {route : Option RoutingEnvelope}
    {facts others : String → Option Json} {name : String}
    (preview : reading (enriched needs host w verb stamp
      (dryRunInput (stamped stamp (previewStep verb args)))) = some (route, facts))
    (commit : reading (enriched needs host w verb stamp args) = some (route, others))
    (differ : facts name ≠ others name) : ¬ Agrees needs host w verb args := by
  intro agrees
  have same := agrees (welcoming route fun facts => facts name = others name) stamp
  have accepted : ((welcoming route fun facts => facts name = others name).dispatch stamp
      (enriched needs host w verb stamp args)).isOk = true := (welcoming_accepts commit).mpr rfl
  rw [previewAccepts, commitAccepts, commandInput_commitStep, accepted,
    welcoming_accepts preview] at same
  exact differ same

theorem agrees_explicit {held : List (String × Json)}
    (filled : Filled needs verb (.object fields))
    (explicit : (Json.object fields).get "with" = some (.object held)) :
    Agrees needs host w verb (.object fields) ↔
      RouteRefused ((Json.object fields).get "to") ∨ hasLooseFact (.object fields) = false := by
  constructor
  · intro agrees
    by_contra h
    push Not at h
    obtain ⟨hroute, hloose⟩ := h
    rw [Bool.ne_false_iff] at hloose
    obtain ⟨route, hrouted⟩ := routed_of_not_refused hroute
    have preview := preview_reads_explicit host ⟨none, none, ""⟩ w filled explicit
    have commit := commit_reads_explicit host ⟨none, none, ""⟩ w filled explicit
    rw [hrouted] at preview
    rw [if_pos hloose] at commit
    exact not_agrees_of_unread preview commit agrees
  · intro h
    apply agrees_of_same_reading
    intro stamp
    rw [preview_reads_explicit _ _ _ filled explicit, commit_reads_explicit _ _ _ filled explicit]
    obtain hroute | hloose := h
    · simp [routed_of_refused hroute]
    · simp [hloose]

theorem agrees_null (clockOnly : ClockOnly needs verb)
    (filled : Filled needs verb (.object fields))
    (null : (Json.object fields).get "with" = some .null) :
    Agrees needs host w verb (.object fields) ↔
      RouteRefused ((Json.object fields).get "to") := by
  have flat : nonNull ((Json.object fields).get "with") = none := by
    rw [null]
    rfl
  constructor
  · intro agrees
    by_contra hroute
    obtain ⟨route, hrouted⟩ := routed_of_not_refused hroute
    -- at one of two moments the commit's facts do not hold the moment of the preview
    obtain ⟨moment, hmoment⟩ : ∃ moment, (stripRoutingKeys (.object fields)).get "occurred_at" ≠
        some (.str moment) := by
      by_cases h : (stripRoutingKeys (.object fields)).get "occurred_at" = some (.str "")
      · exact ⟨"now", by simp [h]⟩
      · exact ⟨"", h⟩
    obtain ⟨facts, hreads, hfacts⟩ := preview_reads_null host ⟨none, none, moment⟩ w clockOnly filled null
    have commit := commit_reads_flat host ⟨none, none, moment⟩ w filled flat
    rw [hrouted] at hreads commit
    exact not_agrees_of_facts hreads commit (hfacts ▸ hmoment.symm) agrees
  · intro hroute
    apply agrees_of_same_reading
    intro stamp
    obtain ⟨facts, hreads, -⟩ := preview_reads_null host stamp w clockOnly filled null
    rw [hreads, commit_reads_flat _ _ _ filled flat, routed_of_refused hroute,
      routed_of_refused hroute]

theorem agrees_bad {held : Json} (explicit : (Json.object fields).get "with" = some held)
    (notNull : held ≠ .null) (notObject : ∀ facts, held ≠ .object facts) :
    Agrees needs host w verb (.object fields) := by
  apply agrees_of_same_reading
  intro stamp
  obtain ⟨hinput, hwith, -⟩ := @previewStep_of_with stamp verb _ _ explicit
  obtain ⟨step, hstep⟩ := stamped_eq_object stamp (previewStep verb (.object fields))
  rw [hinput]
  rw [hstep] at hwith ⊢
  rw [reading_enriched_bad hwith notNull notObject,
    reading_enriched_bad explicit notNull notObject]

theorem agrees_mixed {target : Json} (clockOnly : ClockOnly needs verb)
    (filled : Filled needs verb (.object fields))
    (absent : (Json.object fields).get "with" = none)
    (htarget : (Json.object fields).get "to" = some target) :
    Agrees needs host w verb (.object fields) ↔
      RouteRefused (some target) ∨ (Json.object (defaultsOf needs verb)).get "to" = none := by
  have flat : nonNull ((Json.object fields).get "with") = none := by
    rw [absent]
    rfl
  have noTarget : (Json.object (fields.filter fun f => f.1 ≠ "to")).get "to" = none := by
    rw [get_filter_ne, if_pos rfl]
  constructor
  · intro agrees
    by_contra h
    push Not at h
    obtain ⟨hroute, hdefault⟩ := h
    obtain ⟨route, hrouted⟩ := routed_of_not_refused hroute
    have preview := @preview_reads_mixed _ needs host verb ⟨none, none, ""⟩ w _ _ absent htarget
    have commit := commit_reads_flat host ⟨none, none, ""⟩ w filled flat
    rw [hrouted] at preview
    rw [htarget, hrouted] at commit
    have differ : (Json.object (filledFacts needs host verb ⟨none, none, ""⟩ w
        (fields.filter fun f => f.1 ≠ "to"))).get "to" ≠
          (stripRoutingKeys (.object fields)).get "to" := by
      rwa [filledFacts_default clockOnly (by decide) (by decide) noTarget, get_strip,
        if_pos (.inl rfl)]
    exact not_agrees_of_facts preview commit differ agrees
  · intro h
    apply agrees_of_same_reading
    intro stamp
    rw [preview_reads_mixed _ _ _ absent htarget, commit_reads_flat _ _ _ filled flat, htarget]
    obtain hroute | hdefault := h
    · rw [routed_of_refused hroute, routed_of_refused hroute]
    · rw [mixed_filled _ _ _ clockOnly filled absent hdefault]
      congr 1
      funext name
      rw [get_filter_ne, get_strip]
      by_cases hto : name = "to"
      · simp [hto]
      · by_cases hwith : name = "with"
        · simp [hwith, absent]
        · simp [hto, hwith]

theorem agrees_plain (filled : Filled needs verb (.object fields))
    (absent : (Json.object fields).get "with" = none)
    (noTarget : (Json.object fields).get "to" = none) :
    Agrees needs host w verb (.object fields) := by
  have flat : nonNull ((Json.object fields).get "with") = none := by
    rw [absent]
    rfl
  apply agrees_of_same_reading
  intro stamp
  rw [preview_reads_plain _ _ _ filled absent noTarget, commit_reads_flat _ _ _ filled flat, noTarget]
  congr 1
  funext name
  rw [get_strip]
  by_cases hto : name = "to"
  · simp [hto, noTarget]
  · by_cases hwith : name = "with"
    · simp [hwith, absent]
    · simp [hto, hwith]

theorem reading_commit_other {args : Json} (h : ∀ fields, args ≠ .object fields) :
    reading (enriched needs host w verb stamp args) = none := by
  have unheld : heldFacts args = none := by
    cases args with
    | object fields => exact absurd rfl (h fields)
    | _ => rfl
  rw [enriched_other unheld]
  exact reading_of_no_object h

/-- Null arguments become a null `with`, which the kernel takes for no facts at all. -/
theorem agrees_nothing (clockOnly : ClockOnly needs verb) :
    Agrees needs host w verb .null ↔
      RouteRefused ((Json.object (defaultsOf needs verb)).get "to") := by
  have preview : ∀ stamp, ∃ facts, reading (enriched needs host w verb stamp
      (dryRunInput (stamped stamp (previewStep verb .null)))) =
        routed ((Json.object (defaultsOf needs verb)).get "to") facts := by
    intro stamp
    have null : (Json.object [("with", Json.null)]).get "with" = some .null := by simp [Json.get]
    have target : (Json.object [("with", Json.null)]).get "to" = none := by simp [Json.get]
    rw [dryRunInput_of_flat _ _ _ rfl rfl, reading_enriched_null null,
      filledFacts_default clockOnly (by decide) (by decide) target]
    exact ⟨_, rfl⟩
  have commit : ∀ stamp, reading (enriched needs host w verb stamp .null) = none :=
    fun stamp => reading_commit_other (by simp)
  constructor
  · intro agrees
    by_contra hroute
    obtain ⟨route, hrouted⟩ := routed_of_not_refused hroute
    obtain ⟨facts, hfacts⟩ := preview ⟨none, none, ""⟩
    rw [hrouted] at hfacts
    exact not_agrees_of_unread hfacts (commit _) agrees
  · intro hroute
    apply agrees_of_same_reading
    intro stamp
    obtain ⟨facts, hfacts⟩ := preview stamp
    rw [hfacts, commit, routed_of_refused hroute]

theorem agrees_other {args : Json} (notNull : args ≠ .null)
    (notObject : ∀ fields, args ≠ .object fields) : Agrees needs host w verb args := by
  have explicit : (Json.object [("with", args)]).get "with" = some args := by simp [Json.get]
  have noWith : args.get "with" = none := by
    cases args <;> first | rfl | exact absurd rfl (notObject _)
  have noTarget : args.get "to" = none := by
    cases args <;> first | rfl | exact absurd rfl (notObject _)
  apply agrees_of_same_reading
  intro stamp
  rw [dryRunInput_of_flat _ _ _ noWith noTarget, reading_commit_other notObject,
    reading_enriched_bad explicit notNull notObject]

/-- For arguments the host has filled in, the preview of a command answers what its commit would
exactly when the two entries of the kernel read them alike. -/
theorem preview_agrees_iff (needs : Needs) (host : Host H) (w : H) (verb : String) (args : Json)
    (clockOnly : ClockOnly needs verb) (filled : Filled needs verb args) :
    Agrees needs host w verb args ↔ ReadAlike needs verb args := by
  cases args with
  | object fields =>
    simp only [ReadAlike]
    cases hwith : (Json.object fields).get "with" with
    | none =>
      cases hto : (Json.object fields).get "to" with
      | none => simp [agrees_plain filled hwith hto]
      | some target => exact agrees_mixed clockOnly filled hwith hto
    | some held =>
      cases held with
      | null => exact agrees_null clockOnly filled hwith
      | object facts => exact agrees_explicit filled hwith
      | _ => simp [agrees_bad hwith]
  | null => exact agrees_nothing clockOnly
  | _ => simp [ReadAlike, agrees_other]

end Agreement

/-- A clock at the epoch, and nobody to ask. -/
def epoch : Host Unit := ⟨fun w => (0, w), none⟩

/-- A receiver and a fact in the older mixed shape. -/
def closeCall : Json := .object [("to", .str "ACC-1"), ("reason", .str "moved")]

theorem closeCall_agrees :
    ClockOnly ⟨[], [], none⟩ "Bank::Account.Close" ∧
    Filled ⟨[], [], none⟩ "Bank::Account.Close" closeCall ∧
    Agrees ⟨[], [], none⟩ epoch () "Bank::Account.Close" closeCall := by
  have clockOnly : ClockOnly ⟨[], [], none⟩ "Bank::Account.Close" := by
    simp [ClockOnly, neededBy]
  have filled : Filled ⟨[], [], none⟩ "Bank::Account.Close" closeCall := by
    simp [Filled, neededBy, defaultsOf]
  refine ⟨clockOnly, filled, ?_⟩
  exact (preview_agrees_iff ⟨[], [], none⟩ epoch () _ closeCall clockOnly filled).mpr (.inr rfl)

/-- A null under `with`, as a client with no facts to separate sends it. -/
def nullWithCall : Json := .object [("with", .null), ("to", .str "ACC-1"), ("reason", .str "moved")]

/-- An account is closed for a reason and takes no other fact. -/
def closeAccount : Command where
  argsName := "CloseArgs"
  depth := 0
  gates := fun _ facts =>
    if (facts "reason").isSome ∧ (facts "dry_run").isNone then .ok ()
    else .error (.unknownArgument "Close takes a reason")
  rest := fun _ _ => .ok ()

theorem null_with_previewed_as_refused :
    Filled ⟨[], [], none⟩ "Bank::Account.Close" nullWithCall ∧
    ¬ Agrees ⟨[], [], none⟩ epoch () "Bank::Account.Close" nullWithCall := by
  constructor
  · simp [Filled, neededBy, defaultsOf]
  · intro agrees
    have same := agrees closeAccount ⟨none, none, "2026-01-01T00:00:00Z"⟩
    revert same
    decide

end Hecks.Host.Preview
