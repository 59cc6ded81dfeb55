import Hecks.Lib.Text
import Hecks.Host.Serde

/-! Facts a command `needs`, answered by the host before the kernel reads the arguments, and the
defaults its attributes declare. -/
namespace Hecks.Host.Needs

/-- A needed fact with the type of the attribute of its name. -/
abbrev Need := String × Option String

abbrev Facts := List (String × Serde)

def list (json : Serde) (key : String) : List Serde := ((json.get key).bind Serde.asArray).getD []

def named (name : String) (json : Serde) : Bool := (json.get "name").bind Serde.asStr == some name

/-- The facts a command declares. -/
def factsOf (command : Serde) : List String :=
  (list command "needs").filterMap fun need => (need.get "fact").bind Serde.asStr

def attributeType (command : Serde) (fact : String) : Option String :=
  ((list command "attributes").find? (named fact)).bind fun declared =>
    (declared.get "type").bind Serde.asStr

/-- The commands of this name on every aggregate of that name; no entity is looked at. -/
def aggregateCommands (ir : Serde) (aggregate command : String) : List Serde :=
  (((list ir "aggregates").filter (named aggregate)).flatMap fun a => list a "commands").filter
    (named command)

def declaredNeeds (ir : Serde) (verb : String) : List Need :=
  match Text.rsplitOnce "." verb with
  | none => []
  | some (qualifiedAggregate, commandName) =>
      (aggregateCommands ir (Text.lastSegment "::" qualifiedAggregate) commandName).flatMap
        fun command => (factsOf command).map fun fact => (fact, attributeType command fact)

/-- The node an entity path leads to. -/
def entityAt : Serde → List String → Option Serde
  | node, [] => some node
  | node, entity :: path => ((list node "entities").find? (named entity)).bind (entityAt · path)

/-- The command a verb names, on the aggregate or on an entity nested inside it. -/
def commandFor (ir : Serde) (verb : String) : Option Serde := do
  match Text.segments '.' verb with
  | [] => none
  | qualified :: rest =>
      let commandName ← rest.getLast?
      let aggregate ← (list ir "aggregates").find? (named (Text.lastSegment "::" qualified))
      let node ← entityAt aggregate rest.dropLast
      (list node "commands").find? (named commandName)

/-- The declared defaults; a default of null declares none. -/
def declaredDefaults (ir : Serde) (verb : String) : Facts :=
  match commandFor ir verb with
  | none => []
  | some command =>
      (list command "attributes").filterMap fun declared => do
        let default ← (declared.get "default").filter fun d => !(d matches .null)
        let name ← (declared.get "name").bind Serde.asStr
        some (name, default)

/-- `facts_mut`: the `with` object when the call carries one, else the flat object itself. -/
def overFacts (f : Facts → Facts) (args : Serde) : Serde :=
  match args with
  | .object fields =>
      match args.get "with" with
      | some (.object facts) => .object (Serde.insert "with" (.object (f facts)) fields)
      | _ => .object (f fields)
  | args => args

def integer (n : Int64) : Serde := .number (toString n.toInt)

/-- `today` is the day the clock's seconds fall in. -/
def answer (fact : String) (attributeType : Option String) (secs : Int64) : Option Serde :=
  if fact = "now" ∨ fact = "today" then
    let answer := if fact = "today" then Int64.ofInt (secs.toInt / 86400) else secs
    if attributeType = some "Integer" then some (integer answer)
    else some (.object [("value", integer answer)])
  else none

/-- What happens to a needed fact the caller already supplied. -/
inductive Supplied where
  | kept
  | replaced
deriving DecidableEq

def holds (facts : Facts) (name : String) : Bool := facts.any fun f => f.1 = name

/-- `clock` tells the readings of the clock one after the other, `asked` how many are used up. -/
def fill (clock : Nat → Int64) (supplied : Supplied) : List Need → Nat → Facts → Facts
  | [], _, facts => facts
  | (fact, attributeType) :: needs, asked, facts =>
      if supplied = .kept ∧ holds facts fact then fill clock supplied needs asked facts
      else
        match answer fact attributeType (clock asked) with
        | some value => fill clock supplied needs (asked + 1) (Serde.insert fact value facts)
        | none => fill clock supplied needs asked facts

def fillNeeds (ir : Serde) (verb : String) (clock : Nat → Int64) (args : Serde) : Serde :=
  overFacts (fill clock .kept (declaredNeeds ir verb) 0) args

def answerNeeds (ir : Serde) (verb : String) (clock : Nat → Int64) (args : Serde) : Serde :=
  overFacts (fill clock .replaced (declaredNeeds ir verb) 0) args

/-- The defaults of the names still missing. -/
def fillAbsent : Facts → Facts → Facts
  | [], facts => facts
  | (name, value) :: defaults, facts =>
      fillAbsent defaults (if holds facts name then facts else Serde.insert name value facts)

def fillDefaults (ir : Serde) (verb : String) (args : Serde) : Serde :=
  let defaults := declaredDefaults ir verb
  if defaults.isEmpty then args else overFacts (fillAbsent defaults) args

/-- Where a dispatch comes from. -/
inductive Origin where
  | external
  | request
  | hostInternal
deriving DecidableEq

def fillArguments (origin : Origin) (ir : Serde) (verb : String) (clock : Nat → Int64)
    (args : Serde) : Serde :=
  fillDefaults ir verb
    (if origin = .request then answerNeeds ir verb clock args else fillNeeds ir verb clock args)

/-! ### What a request can set -/

/-- The facts the command a verb names declares it needs. -/
def needed (ir : Serde) (verb : String) : List String := (commandFor ir verb).elim [] factsOf

/-- The values under every key but these are the same. -/
def SameBut (facts : List String) (a b : Facts) : Prop :=
  ∀ key, key ∉ facts → (Serde.object a).get key = (Serde.object b).get key

/-- The facts of an argument object, where the kernel reads them. -/
def heldFacts (args : Serde) : Option Facts :=
  match args with
  | .object fields =>
      match args.get "with" with
      | some (.object facts) => some facts
      | _ => some fields
  | _ => none

def Flat (fields : Facts) : Prop :=
  ∀ facts, (Serde.object fields).get "with" ≠ some (.object facts)

/-- Two argument objects of one shape that carry the same but for the values of these facts; the
order an object keeps its keys in is no part of its value. -/
inductive SameArgsBut (facts : List String) : Serde → Serde → Prop
  | flat {a b : Facts} (left : Flat a) (right : Flat b) (same : SameBut facts a b) :
      SameArgsBut facts (.object a) (.object b)
  | routed {a b held held' : Facts} (left : (Serde.object a).get "with" = some (.object held))
      (right : (Serde.object b).get "with" = some (.object held'))
      (rest : SameBut ["with"] a b) (same : SameBut facts held held') :
      SameArgsBut facts (.object a) (.object b)

/-- Two argument objects that carry the same. -/
inductive SameArgs : Serde → Serde → Prop
  | flat {a b : Facts} (same : SameBut [] a b) : SameArgs (.object a) (.object b)
  | routed {a b held held' : Facts} (left : (Serde.object a).get "with" = some (.object held))
      (right : (Serde.object b).get "with" = some (.object held'))
      (rest : SameBut ["with"] a b) (same : SameBut [] held held') :
      SameArgs (.object a) (.object b)

/-- The fact the kernel will read is what the clock answers for it. -/
def ClockAnswers (clock : Nat → Int64) (args : Serde) (fact : String) : Prop :=
  ∃ facts attributeType reading, heldFacts args = some facts ∧
    (Serde.object facts).get fact = answer fact attributeType (clock reading)

/-- The command is found on an aggregate of the name right before the verb's last dot, and needs
the fact there. -/
def NeededOnAggregate (ir : Serde) (verb fact : String) : Prop :=
  ∃ qualifiedAggregate commandName,
    Text.rsplitOnce "." verb = some (qualifiedAggregate, commandName) ∧
    ∃ command ∈ aggregateCommands ir (Text.lastSegment "::" qualifiedAggregate) commandName,
      fact ∈ factsOf command

section Facts

theorem get_insert_self (key : String) (value : Serde) (facts : Facts) :
    (Serde.object (Serde.insert key value facts)).get key = some value := by
  induction facts with
  | nil => simp [Serde.insert, Serde.get]
  | cons f facts ih =>
    simp only [Serde.get] at ih
    by_cases h : f.1 = key <;> simp [Serde.insert, Serde.get, h, ih]

theorem get_insert_of_ne {key other : String} (h : other ≠ key) (value : Serde) (facts : Facts) :
    (Serde.object (Serde.insert key value facts)).get other = (Serde.object facts).get other := by
  induction facts with
  | nil => simp [Serde.insert, Serde.get, h.symm]
  | cons f facts ih =>
    simp only [Serde.get] at ih ⊢
    by_cases hf : f.1 = key
    · simp [Serde.insert, hf, h.symm]
    · rw [Serde.insert, if_neg hf]
      by_cases ho : f.1 = other
      · simp [ho]
      · simp [ho, ih]

theorem insert_insert (key : String) (first second : Serde) (facts : Facts) :
    Serde.insert key second (Serde.insert key first facts) = Serde.insert key second facts := by
  induction facts with
  | nil => simp [Serde.insert]
  | cons f facts ih => by_cases h : f.1 = key <;> simp [Serde.insert, h, ih]

theorem insert_held {key : String} {value : Serde} {facts : Facts}
    (h : (Serde.object facts).get key = some value) : Serde.insert key value facts = facts := by
  induction facts with
  | nil => simp [Serde.get] at h
  | cons f facts ih =>
    by_cases hf : f.1 = key
    · simp only [Serde.get, hf, List.find?_cons_of_pos, decide_true, Option.map_some,
        Option.some.injEq] at h
      simp [Serde.insert, hf, ← h, Prod.ext_iff]
    · simp only [Serde.insert, if_neg hf]
      rw [ih]
      simpa [Serde.get, hf] using h

theorem holds_eq (facts : Facts) (name : String) :
    holds facts name = ((Serde.object facts).get name).isSome := by
  induction facts with
  | nil => rfl
  | cons f facts ih =>
    simp only [holds, Serde.get, Option.isSome_map] at ih ⊢
    by_cases h : f.1 = name <;> simp [h, ih]

theorem SameBut.insert {facts : List String} {a b : Facts} {key : String}
    (same : SameBut (key :: facts) a b) (value : Serde) :
    SameBut facts (Serde.insert key value a) (Serde.insert key value b) := by
  intro other hother
  by_cases h : other = key
  · rw [h, get_insert_self, get_insert_self]
  · rw [get_insert_of_ne h, get_insert_of_ne h]
    apply same
    simp [h, hother]

theorem SameBut.mono {facts wider : List String} {a b : Facts} (same : SameBut facts a b)
    (h : facts ⊆ wider) : SameBut wider a b := by
  intro key hkey
  exact same key fun hmem => hkey (h hmem)

end Facts

/-! ### The clock's answers -/

/-- The facts among some needs that the clock answers. -/
def answered (needs : List Need) : List String :=
  (needs.map Prod.fst).filter fun fact => fact = "now" ∨ fact = "today"

theorem answer_of_clock {fact : String} (h : fact = "now" ∨ fact = "today")
    (attributeType : Option String) (secs : Int64) :
    ∃ value, answer fact attributeType secs = some value := by
  simp only [answer, if_pos h]
  split <;> exact ⟨_, rfl⟩

theorem answer_of_other {fact : String} (h : ¬(fact = "now" ∨ fact = "today"))
    (attributeType : Option String) (secs : Int64) : answer fact attributeType secs = none := by
  simp only [answer, if_neg h]

section Fill

variable (clock : Nat → Int64)

/-- Two objects that differ in answered facts only are the same once these are filled. -/
theorem fill_same (needs : List Need) : ∀ (asked : Nat) (a b : Facts),
    SameBut (answered needs) a b →
      SameBut [] (fill clock .replaced needs asked a) (fill clock .replaced needs asked b) := by
  induction needs with
  | nil => exact fun _ _ _ same => same
  | cons need needs ih =>
    intro asked a b same
    obtain ⟨fact, attributeType⟩ := need
    by_cases h : fact = "now" ∨ fact = "today"
    · obtain ⟨value, hvalue⟩ := answer_of_clock h attributeType (clock asked)
      have here : answered ((fact, attributeType) :: needs) = fact :: answered needs := by
        simp [answered, h]
      rw [here] at same
      simpa [fill, hvalue] using ih (asked + 1) _ _ (same.insert value)
    · have here : answered ((fact, attributeType) :: needs) = answered needs := by
        simp [answered, h]
      rw [here] at same
      simpa [fill, answer_of_other h] using ih asked _ _ same

theorem fill_untouched {key : String} (needs : List Need) (h : key ∉ answered needs) :
    ∀ (asked : Nat) (facts : Facts),
      (Serde.object (fill clock .replaced needs asked facts)).get key =
        (Serde.object facts).get key := by
  induction needs with
  | nil => exact fun _ _ => rfl
  | cons need needs ih =>
    intro asked facts
    obtain ⟨fact, attributeType⟩ := need
    by_cases hf : fact = "now" ∨ fact = "today"
    · obtain ⟨value, hvalue⟩ := answer_of_clock hf attributeType (clock asked)
      have here : answered ((fact, attributeType) :: needs) = fact :: answered needs := by
        simp [answered, hf]
      rw [here, List.mem_cons, not_or] at h
      simp only [fill, hvalue, reduceCtorEq, false_and, if_false]
      rw [ih h.2, get_insert_of_ne h.1]
    · have here : answered ((fact, attributeType) :: needs) = answered needs := by
        simp [answered, hf]
      rw [here] at h
      simpa [fill, answer_of_other hf] using ih h asked facts

theorem fill_answers {key : String} (needs : List Need) (h : key ∈ answered needs) :
    ∀ (asked : Nat) (facts : Facts), ∃ attributeType reading,
      (Serde.object (fill clock .replaced needs asked facts)).get key =
        answer key attributeType (clock reading) := by
  induction needs with
  | nil => simp [answered] at h
  | cons need needs ih =>
    intro asked facts
    obtain ⟨fact, attributeType⟩ := need
    by_cases later : key ∈ answered needs
    · cases hvalue : answer fact attributeType (clock asked) with
      | none => simpa [fill, hvalue] using ih later asked facts
      | some value => simpa [fill, hvalue] using ih later (asked + 1) _
    · -- the last need of that fact is this one, and nothing after it touches the fact
      have here : key = fact ∧ (fact = "now" ∨ fact = "today") := by
        simp only [answered, List.map_cons, List.mem_filter, List.mem_cons] at h later
        grind
      obtain ⟨rfl, hclock⟩ := here
      obtain ⟨value, hvalue⟩ := answer_of_clock hclock attributeType (clock asked)
      refine ⟨attributeType, asked, ?_⟩
      simp only [fill, hvalue, reduceCtorEq, false_and, if_false]
      rw [fill_untouched clock needs later, get_insert_self]

end Fill

theorem fillAbsent_get (defaults : Facts) : ∀ (facts : Facts) (key : String),
    (Serde.object (fillAbsent defaults facts)).get key =
      ((Serde.object facts).get key).or ((Serde.object defaults).get key) := by
  induction defaults with
  | nil => intro facts key; simp [fillAbsent, Serde.get]
  | cons default defaults ih =>
    intro facts key
    obtain ⟨name, value⟩ := default
    have tail : (Serde.object ((name, value) :: defaults)).get key =
        if name = key then some value else (Serde.object defaults).get key := by
      by_cases h : name = key <;> simp [Serde.get, h]
    rw [fillAbsent, ih, tail, holds_eq]
    cases held : (Serde.object facts).get name with
    | some old =>
      by_cases h : name = key
      · subst h
        simp [held]
      · simp [h]
    | none =>
      by_cases h : name = key
      · subst h
        simp [held, get_insert_self]
      · simp [h, get_insert_of_ne (Ne.symm h)]

theorem fillAbsent_same {a b : Facts} (defaults : Facts) (same : SameBut [] a b) :
    SameBut [] (fillAbsent defaults a) (fillAbsent defaults b) := by
  intro key hkey
  rw [fillAbsent_get, fillAbsent_get, same key hkey]

/-! ### The two shapes of arguments -/

section Shapes

variable {a held : Facts}

theorem overFacts_flat (f : Facts → Facts) (flat : Flat a) :
    overFacts f (.object a) = .object (f a) := by
  simp only [overFacts]
  split
  · rename_i facts hwith
    exact absurd hwith (flat facts)
  · rfl

theorem overFacts_routed (f : Facts → Facts)
    (routed : (Serde.object a).get "with" = some (.object held)) :
    overFacts f (.object a) = .object (Serde.insert "with" (.object (f held)) a) := by
  simp only [overFacts, routed]

theorem fillDefaults_flat (ir : Serde) (verb : String) (flat : Flat a) :
    fillDefaults ir verb (.object a) = .object (fillAbsent (declaredDefaults ir verb) a) := by
  unfold fillDefaults
  cases hd : declaredDefaults ir verb with
  | nil => rfl
  | cons default defaults =>
    simp only [List.isEmpty_cons, Bool.false_eq_true, if_false]
    exact overFacts_flat _ flat

theorem fillDefaults_routed (ir : Serde) (verb : String)
    (routed : (Serde.object a).get "with" = some (.object held)) :
    fillDefaults ir verb (.object a) =
      .object (Serde.insert "with" (.object (fillAbsent (declaredDefaults ir verb) held)) a) := by
  unfold fillDefaults
  cases hd : declaredDefaults ir verb with
  | nil => simp [fillAbsent, insert_held routed]
  | cons default defaults =>
    simp only [List.isEmpty_cons, Bool.false_eq_true, if_false]
    exact overFacts_routed _ routed

variable (ir : Serde) (verb : String) (clock : Nat → Int64)

/-- The facts of a request as the host fills them in. -/
def filled (facts : Facts) : Facts :=
  fillAbsent (declaredDefaults ir verb) (fill clock .replaced (declaredNeeds ir verb) 0 facts)

theorem with_not_answered (needs : List Need) : "with" ∉ answered needs := by
  simp [answered]

theorem fill_flat (flat : Flat a) (needs : List Need) :
    Flat (fill clock .replaced needs 0 a) := by
  intro facts
  rw [fill_untouched clock needs (with_not_answered needs)]
  exact flat facts

theorem fillArguments_flat (flat : Flat a) :
    fillArguments .request ir verb clock (.object a) = .object (filled ir verb clock a) := by
  simp only [fillArguments, if_true, answerNeeds]
  rw [overFacts_flat _ flat]
  exact fillDefaults_flat ir verb (fill_flat clock flat _)

theorem fillArguments_routed (routed : (Serde.object a).get "with" = some (.object held)) :
    fillArguments .request ir verb clock (.object a) =
      .object (Serde.insert "with" (.object (filled ir verb clock held)) a) := by
  simp only [fillArguments, if_true, answerNeeds]
  rw [overFacts_routed _ routed, fillDefaults_routed ir verb (get_insert_self _ _ _),
    insert_insert]
  rfl

end Shapes

/-! ### Two requests that differ in what they say of the clock -/

section Requests

variable {ir : Serde} {verb : String}

theorem mem_answered_declaredNeeds {fact : String} :
    fact ∈ answered (declaredNeeds ir verb) ↔
      (fact = "now" ∨ fact = "today") ∧ NeededOnAggregate ir verb fact := by
  have declared : fact ∈ (declaredNeeds ir verb).map Prod.fst ↔
      NeededOnAggregate ir verb fact := by
    unfold declaredNeeds NeededOnAggregate
    cases Text.rsplitOnce "." verb with
    | none => simp
    | some parts => simp [Prod.ext_iff, and_assoc]
  simp only [answered, List.mem_filter, declared, decide_eq_true_eq, and_comm]

theorem filled_same {a b : Facts} (clock : Nat → Int64)
    (same : SameBut (answered (declaredNeeds ir verb)) a b) :
    SameBut [] (filled ir verb clock a) (filled ir verb clock b) :=
  fillAbsent_same _ (fill_same clock _ 0 a b same)

theorem filled_answers {fact : String} (clock : Nat → Int64)
    (h : fact ∈ answered (declaredNeeds ir verb)) (facts : Facts) :
    ∃ attributeType reading,
      (Serde.object (filled ir verb clock facts)).get fact =
        answer fact attributeType (clock reading) := by
  obtain ⟨attributeType, reading, hanswer⟩ := fill_answers clock _ h 0 facts
  refine ⟨attributeType, reading, ?_⟩
  have hclock := (mem_answered_declaredNeeds.mp h).1
  obtain ⟨value, hvalue⟩ := answer_of_clock hclock attributeType (clock reading)
  rw [filled, fillAbsent_get, hanswer, hvalue, Option.some_or]

/-- A fact the clock does not answer stays as the request has it. -/
theorem filled_untouched {fact : String} (clock : Nat → Int64)
    (h : fact ∉ answered (declaredNeeds ir verb)) {facts : Facts} {value : Serde}
    (held : (Serde.object facts).get fact = some value) :
    (Serde.object (filled ir verb clock facts)).get fact = some value := by
  rw [filled, fillAbsent_get, fill_untouched clock _ h, held, Option.some_or]

theorem filled_flat {a : Facts} (clock : Nat → Int64) (flat : Flat a)
    (defaults : Flat (declaredDefaults ir verb)) : Flat (filled ir verb clock a) := by
  intro facts
  rw [filled, fillAbsent_get]
  cases hwith : (Serde.object (fill clock .replaced (declaredNeeds ir verb) 0 a)).get "with" with
  | none => simpa using defaults facts
  | some value =>
    have := fill_flat clock flat (declaredNeeds ir verb) facts
    rwa [hwith] at this

theorem heldFacts_flat {a : Facts} (flat : Flat a) : heldFacts (.object a) = some a := by
  simp only [heldFacts]
  split
  · rename_i facts hwith
    exact absurd hwith (flat facts)
  · rfl

theorem heldFacts_routed {a held : Facts}
    (routed : (Serde.object a).get "with" = some (.object held)) :
    heldFacts (.object a) = some held := by
  simp only [heldFacts, routed]

/-- What two requests' arguments have to be, whatever they say of the needed facts. -/
def ClockKept (ir : Serde) (verb : String) (clock : Nat → Int64) (a b : Serde) : Prop :=
  SameArgs (fillArguments .request ir verb clock a) (fillArguments .request ir verb clock b) ∧
    ∀ fact ∈ needed ir verb, fact = "now" ∨ fact = "today" →
      ClockAnswers clock (fillArguments .request ir verb clock a) fact

theorem clockKept_of_answered {a b : Serde} (clock : Nat → Int64)
    (found : ∀ fact ∈ needed ir verb,
      (fact = "now" ∨ fact = "today") ∧ NeededOnAggregate ir verb fact)
    (defaults : needed ir verb = [] ∨ Flat (declaredDefaults ir verb))
    (differ : SameArgsBut (needed ir verb) a b) : ClockKept ir verb clock a b := by
  have covered : needed ir verb ⊆ answered (declaredNeeds ir verb) :=
    fun fact hfact => mem_answered_declaredNeeds.mpr (found fact hfact)
  cases differ with
  | @flat a b left right same =>
    constructor
    · rw [fillArguments_flat ir verb clock left, fillArguments_flat ir verb clock right]
      exact .flat (filled_same clock (same.mono covered))
    · intro fact hfact _
      have flat : Flat (declaredDefaults ir verb) :=
        defaults.resolve_left (List.ne_nil_of_mem hfact)
      obtain ⟨attributeType, reading, hanswer⟩ := filled_answers clock (covered hfact) a
      rw [fillArguments_flat ir verb clock left]
      exact ⟨_, attributeType, reading, heldFacts_flat (filled_flat clock left flat), hanswer⟩
  | @routed a b held held' left right rest same =>
    constructor
    · rw [fillArguments_routed ir verb clock left, fillArguments_routed ir verb clock right]
      apply SameArgs.routed (get_insert_self _ _ _) (get_insert_self _ _ _)
      · intro key hkey
        rw [List.mem_singleton] at hkey
        rw [get_insert_of_ne hkey, get_insert_of_ne hkey]
        exact rest key (by simpa using hkey)
      · exact filled_same clock (same.mono covered)
    · intro fact hfact _
      obtain ⟨attributeType, reading, hanswer⟩ := filled_answers clock (covered hfact) held
      rw [fillArguments_routed ir verb clock left]
      exact ⟨_, attributeType, reading, heldFacts_routed (get_insert_self _ _ _), hanswer⟩

/-- Two requests that say a different number for one fact and nothing else. -/
theorem flat_saying (fact : String) (n : Int64) : Flat [(fact, integer n)] := by
  intro facts hwith
  by_cases h : fact = "with" <;> simp [Serde.get, h, integer] at hwith

theorem saying_same_but {fact : String} {facts : List String} (h : fact ∈ facts) (n m : Int64) :
    SameBut facts [(fact, integer n)] [(fact, integer m)] := by
  intro key hkey
  have : fact ≠ key := fun heq => hkey (heq ▸ h)
  simp [Serde.get, this]

theorem answered_of_clockKept {fact : String} (hneeded : fact ∈ needed ir verb)
    (kept : ∀ clock a b, SameArgsBut (needed ir verb) a b → ClockKept ir verb clock a b) :
    fact ∈ answered (declaredNeeds ir verb) := by
  by_contra h
  -- the request's own number survives the filling, so it cannot be the same for 1 and 2
  have survives : ∀ n : Int64, (Serde.object (filled ir verb (fun _ => 0)
      [(fact, integer n)])).get fact = some (integer n) :=
    fun n => filled_untouched _ h (by simp [Serde.get])
  have same := (kept (fun _ => 0) _ _
    (.flat (flat_saying fact 1) (flat_saying fact 2) (saying_same_but hneeded 1 2))).1
  rw [fillArguments_flat ir verb _ (flat_saying fact 1),
    fillArguments_flat ir verb _ (flat_saying fact 2)] at same
  have texts : toString (1 : Int64).toInt ≠ toString (2 : Int64).toInt := by decide
  have differ : some (integer 1) ≠ some (integer 2) := by
    intro same
    exact texts (Serde.number.inj (Option.some.inj same))
  cases same with
  | flat same =>
    have := same fact (by simp)
    rw [survives 1, survives 2] at this
    exact differ this
  | @routed _ _ held _ left _ rest _ =>
    by_cases hwith : fact = "with"
    · subst hwith
      rw [survives 1] at left
      simp [integer] at left
    · have := rest fact (by simpa using hwith)
      rw [survives 1, survives 2] at this
      exact differ this

theorem answer_tells_time {fact : String} (h : fact = "now" ∨ fact = "today")
    (left right : Option String) : answer fact left 0 ≠ answer fact right 86400 := by
  obtain rfl | rfl := h
  all_goals
    by_cases hl : left = some "Integer" <;> by_cases hr : right = some "Integer" <;>
      simp [answer, integer, hl, hr] <;> decide

/-- A default called `with` would hide the facts of a flat call from the kernel. -/
theorem flat_defaults_of_clockKept {fact : String} (hneeded : fact ∈ needed ir verb)
    (kept : ∀ clock a b, SameArgsBut (needed ir verb) a b → ClockKept ir verb clock a b) :
    Flat (declaredDefaults ir verb) := by
  intro held hwith
  have hclock := (mem_answered_declaredNeeds.mp (answered_of_clockKept hneeded kept)).1
  have flat : Flat [] := by simp [Flat, Serde.get]
  have told : ∀ secs : Int64, ∃ attributeType,
      (Serde.object held).get fact = answer fact attributeType secs := by
    intro secs
    have answers := (kept (fun _ => secs) _ _ (.flat flat flat fun _ _ => rfl)).2 fact hneeded
      hclock
    obtain ⟨facts, attributeType, reading, hfacts, hanswer⟩ := answers
    have hidden : (Serde.object (filled ir verb (fun _ => secs) [])).get "with" =
        some (.object held) := by
      rw [filled, fillAbsent_get, fill_untouched _ _ (with_not_answered _), hwith]
      rfl
    rw [fillArguments_flat ir verb _ flat, heldFacts_routed hidden, Option.some.injEq] at hfacts
    exact ⟨attributeType, hfacts ▸ hanswer⟩
  obtain ⟨left, hleft⟩ := told 0
  obtain ⟨right, hright⟩ := told 86400
  exact answer_tells_time hclock left right (hleft.symm.trans hright)

/-- Whatever two requests say of the facts a command needs, the host dispatches the same arguments
with the clock's own answers, exactly when every needed fact is one the clock answers and is
found on an aggregate, and no default is an object called `with`. -/
theorem request_cannot_set_clock_iff (ir : Serde) (verb : String) :
    (∀ clock a b, SameArgsBut (needed ir verb) a b → ClockKept ir verb clock a b) ↔
      (∀ fact ∈ needed ir verb,
        (fact = "now" ∨ fact = "today") ∧ NeededOnAggregate ir verb fact) ∧
      (needed ir verb = [] ∨ Flat (declaredDefaults ir verb)) := by
  constructor
  · intro kept
    constructor
    · intro fact hfact
      exact mem_answered_declaredNeeds.mp (answered_of_clockKept hfact kept)
    · cases hneeded : needed ir verb with
      | nil => exact .inl rfl
      | cons fact facts =>
        have hfact : fact ∈ needed ir verb := by simp [hneeded]
        exact .inr (flat_defaults_of_clockKept hfact kept)
  · intro ⟨found, defaults⟩ clock a b differ
    exact clockKept_of_answered clock found defaults differ

/-- A command of an entity is found on no aggregate, as no aggregate has a dot in its name. -/
theorem entity_command_needs_nothing {qualifiedAggregate commandName : String}
    (plain : ∀ a ∈ list ir "aggregates", ∀ name, named name a →
      Text.containsChar '.' name = false)
    (split : Text.rsplitOnce "." verb = some (qualifiedAggregate, commandName))
    (nested : Text.containsChar '.' (Text.lastSegment "::" qualifiedAggregate) = true) :
    declaredNeeds ir verb = [] := by
  have noAggregate : (list ir "aggregates").filter
      (named (Text.lastSegment "::" qualifiedAggregate)) = [] := by
    rw [List.filter_eq_nil_iff]
    intro a ha hnamed
    have := plain a ha _ hnamed
    rw [nested] at this
    cases this
  simp only [declaredNeeds, split, aggregateCommands, noAggregate]
  rfl

end Requests

/-- An order whose lines note when they are added. -/
def lineShop : Serde :=
  .object [("name", .string "Shop"), ("aggregates", .array [.object [("name", .string "Order"),
    ("commands", .array []),
    ("entities", .array [.object [("name", .string "Line"),
      ("commands", .array [.object [("name", .string "Add"),
        ("attributes", .array [.object [("name", .string "now"), ("type", .string "Integer")]]),
        ("needs", .array [.object [("fact", .string "now")]])]])]])]])]

theorem entity_request_sets_clock :
    needed lineShop "Shop::Order.Line.Add" = ["now"] ∧
    SameArgsBut (needed lineShop "Shop::Order.Line.Add")
      (.object [("now", integer 42)]) (.object [("now", integer 43)]) ∧
    ¬ ClockKept lineShop "Shop::Order.Line.Add" (fun _ => 7)
      (.object [("now", integer 42)]) (.object [("now", integer 43)]) := by
  have needs : needed lineShop "Shop::Order.Line.Add" = ["now"] := by rfl
  refine ⟨needs, ?_, ?_⟩
  · rw [needs]
    exact .flat (flat_saying "now" 42) (flat_saying "now" 43)
      (saying_same_but (List.mem_singleton_self _) 42 43)
  · intro kept
    obtain ⟨facts, attributeType, reading, hfacts, hanswer⟩ :=
      kept.2 "now" (by simp [needs]) (.inl rfl)
    have kept42 : some [("now", integer 42)] = some facts := hfacts
    cases kept42
    have differ : toString (42 : Int64).toInt ≠ toString (7 : Int64).toInt := by decide
    by_cases h : attributeType = some "Integer" <;>
      simp [Serde.get, answer, integer, h] at hanswer <;> exact differ hanswer

end Hecks.Host.Needs
