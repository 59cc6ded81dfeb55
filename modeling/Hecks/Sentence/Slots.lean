import Hecks.Sentence.File

/-! The single-valued slots of a sentence file: which sentences fill each, and that a slot whose
reader refuses a second sentence is never filled twice in a block. -/
namespace Hecks.Sentence

/-! ### What a block's reader leaves -/

section

variable {σ τ : Type} {p : Parser} {M : Meanings} {context : Context} {allowProse : Bool}

theorem flat_ok {said : ParseResult σ} {rest : List Line} {out : σ × List Line}
    (read : flat said rest = .ok out) : said = .ok out.1 ∧ out.2 = rest := by
  cases said with
  | error refused => cases read
  | ok value =>
    cases read
    exact ⟨rfl, rfl⟩

/-- Leaves all it was given, or all but what the header heads. -/
def Leaves (header : Matched) (rest rest' : List Line) : Prop :=
  rest' = rest ∨ rest' = Layout.skip Line.indent header.indent rest

theorem careful_takeStep {describe : σ → Text → σ}
    {say : σ → Matched → List Line → ParseResult (σ × List Line)}
    (leaves : ∀ {state m rest out}, say state m rest = .ok out → Leaves m rest out.2) :
    Parser.Careful (takeStep describe say) := by
  intro state step rest state' rest' taken
  cases step with
  | prose text =>
    cases taken
    exact .inl rfl
  | phrase m =>
    obtain same | skipped := leaves taken
    · exact .inl same
    · exact .inr ⟨m, rfl, skipped⟩

theorem block_rest {take : σ → Step → List Line → ParseResult (σ × List Line)}
    (careful : Parser.Careful take) {header : Nat} {state : σ} {lines : List Line}
    {out : σ × List Line}
    (read : p.block context allowProse header take state lines = .ok out) :
    out.2 = Layout.skip Line.indent header lines := by
  obtain ⟨e, under, -, chain⟩ := Parser.block_chain careful read
  exact chain.rest (decide_eq_true under)

theorem flat_leaves {said : ParseResult σ} {m : Matched} {rest : List Line} {out : σ × List Line}
    (read : flat said rest = .ok out) : Leaves m rest out.2 := .inl (flat_ok read).2

end

namespace Parser

variable {p : Parser} {M : Meanings}

theorem attributeLines_rest {header : Matched} {lines : List Line} {out}
    (read : p.attributeLines M header lines = .ok out) :
    out.2 = Layout.skip Line.indent header.indent lines :=
  block_rest (careful_takeStep flat_leaves) read

/-- What is written of an aggregate stays written. -/
structure Keeps (st st' : AggState) : Prop where
  identity : st.identity.isSome = true → st'.identity.isSome = true
  lifecycle : st.lifecycle.isSome = true → st'.lifecycle.isSome = true

theorem Keeps.refl (st : AggState) : Keeps st st := ⟨id, id⟩

theorem Keeps.trans {st st' st'' : AggState} (h : Keeps st st') (h' : Keeps st' st'') :
    Keeps st st'' := ⟨h'.identity ∘ h.identity, h'.lifecycle ∘ h.lifecycle⟩

theorem Keeps.of_same {st st' : AggState} (identity : st'.identity = st.identity)
    (lifecycle : st'.lifecycle = st.lifecycle) : Keeps st st' := by
  constructor
  · rw [identity]
    exact id
  · rw [lifecycle]
    exact id

/-- A sub-block's reader: it keeps what is written and reads to the block's end. -/
def Files (header : Matched) (st : AggState) (lines : List Line)
    (said : ParseResult (AggState × List Line)) : Prop :=
  ∀ {out}, said = .ok out → Keeps st out.1 ∧ out.2 = Layout.skip Line.indent header.indent lines

theorem has_files (header : Matched) (st : AggState) (lines : List Line) :
    Files header st lines (p.has M header st lines) := by
  intro out read
  obtain ⟨held, blocked, read⟩ := Reading.bind_eq_ok.mp read
  cases read
  exact ⟨.of_same rfl rfl, attributeLines_rest blocked⟩

theorem valueRules_files (header : Matched) (held : ValueObject) {st st' : AggState}
    (keeps : Keeps st st') (lines : List Line) :
    Files header st lines (p.valueRules M header held st' lines) := by
  intro out read
  obtain ⟨ruled, blocked, read⟩ := Reading.bind_eq_ok.mp read
  have left := block_rest (careful_takeStep flat_leaves) blocked
  cases read
  exact ⟨keeps.trans (.of_same rfl rfl), left⟩

theorem valueObject_files (header : Matched) (st : AggState) (lines : List Line) :
    Files header st lines (p.valueObject M header st lines) := by
  intro out read
  obtain ⟨attr, -, read⟩ := Reading.bind_eq_ok.mp read
  exact valueRules_files header _ (by exact .of_same rfl rfl) lines read

theorem closedSet_files (header : Matched) (st : AggState) (lines : List Line) :
    Files header st lines (p.closedSet M header st lines) :=
  valueRules_files header _ (.refl st) lines

theorem valueFields_files (header : Matched) (st : AggState) (lines : List Line) :
    Files header st lines (p.valueFields M header st lines) := by
  intro out read
  obtain ⟨held, blocked, read⟩ := Reading.bind_eq_ok.mp read
  have left := block_rest (careful_takeStep flat_leaves) blocked
  dsimp only at read
  split at read
  · cases read
  · cases read
    exact ⟨.of_same rfl rfl, left⟩

theorem queryLine_leaves {read : QueryRead} {m : Matched} {rest : List Line}
    {out : QueryRead × List Line} (said : p.queryLine M read m rest = .ok out) :
    Leaves m rest out.2 := by
  rw [queryLine] at said
  split at said
  · obtain ⟨held, lines, said⟩ := Reading.bind_eq_ok.mp said
    cases said
    exact .inr (attributeLines_rest lines)
  · exact flat_leaves said

theorem query_files (header : Matched) (st : AggState) (lines : List Line) :
    Files header st lines (p.query M header st lines) := by
  intro out read
  obtain ⟨held, blocked, read⟩ := Reading.bind_eq_ok.mp read
  obtain ⟨wheres, -, read⟩ := Reading.bind_eq_ok.mp read
  cases read
  exact ⟨.of_same rfl rfl, block_rest (careful_takeStep queryLine_leaves) blocked⟩

theorem lifecycle_files (header : Matched) (st : AggState) (lines : List Line) :
    Files header st lines (p.lifecycle M header st lines) := by
  intro out read
  rw [lifecycle] at read
  split at read
  · cases read
  · obtain ⟨spec, blocked, read⟩ := Reading.bind_eq_ok.mp read
    have left := block_rest (careful_takeStep flat_leaves) blocked
    cases read
    exact ⟨⟨id, fun _ => rfl⟩, left⟩

theorem commandLine_leaves {read : CommandRead} {m : Matched} {rest : List Line}
    {out : CommandRead × List Line} (said : p.commandLine M read m rest = .ok out) :
    Leaves m rest out.2 := by
  rw [commandLine] at said
  split at said
  · obtain ⟨held, lines, said⟩ := Reading.bind_eq_ok.mp said
    cases said
    exact .inr (attributeLines_rest lines)
  · exact flat_leaves said

theorem commandSentence_keeps {read read' : CommandRead} {m : Matched}
    (said : p.commandSentence M read m = .ok read') : Keeps read.st read'.st := by
  rw [commandSentence] at said
  dsimp only at said
  obtain ⟨-, said⟩ | ⟨-, said⟩ := ite_eq_iff.mp said
  · cases said
    exact .refl _
  obtain ⟨-, said⟩ | ⟨-, said⟩ := ite_eq_iff.mp said
  · obtain ⟨roles, -, said⟩ := Reading.bind_eq_ok.mp said
    cases said
    exact .refl _
  obtain ⟨-, said⟩ | ⟨-, said⟩ := ite_eq_iff.mp said
  · obtain ⟨_, -, said⟩ := Reading.bind_eq_ok.mp said
    cases said
    exact .refl _
  obtain ⟨-, said⟩ | ⟨-, said⟩ := ite_eq_iff.mp said
  · cases said
    exact .refl _
  obtain ⟨-, said⟩ | ⟨-, said⟩ := ite_eq_iff.mp said
  · cases said
    exact .refl _
  obtain ⟨-, said⟩ | ⟨-, said⟩ := ite_eq_iff.mp said
  · cases said
    exact .refl _
  obtain ⟨-, said⟩ | ⟨-, said⟩ := ite_eq_iff.mp said
  · obtain ⟨value, -, said⟩ := Reading.bind_eq_ok.mp said
    cases said
    exact .refl _
  obtain ⟨-, said⟩ | ⟨-, said⟩ := ite_eq_iff.mp said
  · obtain ⟨cond, -, said⟩ := Reading.bind_eq_ok.mp said
    cases said
    exact .refl _
  obtain ⟨-, said⟩ | ⟨-, said⟩ := ite_eq_iff.mp said
  · cases said
    exact .refl _
  obtain ⟨-, said⟩ | ⟨-, said⟩ := ite_eq_iff.mp said
  · obtain ⟨cond, -, said⟩ := Reading.bind_eq_ok.mp said
    cases said
    exact .of_same rfl rfl
  obtain ⟨changes, -, said⟩ := Reading.bind_eq_ok.mp said
  cases changes with
  | none => cases said
  | some changes =>
    cases said
    exact .refl _

theorem command_files (header : Matched) (st : AggState) (lines : List Line) :
    Files header st lines (p.command M header st lines) := by
  intro out read
  obtain ⟨held, blocked, read⟩ := Reading.bind_eq_ok.mp read
  have careful : Careful (takeStep undescribed (p.commandLine M)) :=
    careful_takeStep commandLine_leaves
  have left := block_rest careful blocked
  obtain ⟨e, -, -, chain⟩ := block_chain careful blocked
  have kept : Keeps st held.1.st := by
    refine chain.invariant (I := fun read => Keeps st read.st) ?_ (Keeps.refl st)
    intro s t line rest acts keeps
    obtain ⟨step, rest', -, taken⟩ := acts
    cases step with
    | prose text =>
      cases taken
      exact keeps
    | phrase m =>
      dsimp only [takeStep] at taken
      rw [commandLine] at taken
      obtain ⟨-, taken⟩ | ⟨-, taken⟩ := ite_eq_iff.mp taken
      · obtain ⟨more, -, taken⟩ := Reading.bind_eq_ok.mp taken
        cases taken
        exact keeps
      · exact keeps.trans (commandSentence_keeps (flat_ok taken).1)
  cases read
  exact ⟨kept.trans (.of_same rfl rfl), left⟩

/-! ### What a sentence of an aggregate does -/

/-- What one sentence leaves of an aggregate's reading, with these lines after it. -/
structure Grows (rest : List Line) (read read' : AggRead) : Prop where
  keeps : Keeps read.st read'.st
  entities : read.entities ⊆ read'.entities
  only : ∀ place ∈ read'.entities, place ∈ read.entities ∨ place.2 = rest

theorem Grows.of_entities {rest : List Line} {read read' : AggRead}
    (keeps : Keeps read.st read'.st) (same : read'.entities = read.entities) :
    Grows rest read read' :=
  ⟨keeps, same ▸ fun _ mem => mem, fun _ mem => .inl (same ▸ mem)⟩

theorem filed_files {read : AggRead} {header : Matched} {rest : List Line}
    {said : ParseResult (AggState × List Line)} {out : AggRead × List Line}
    (files : Files header read.st rest said) (filed : filed read said = .ok out) :
    Leaves header rest out.2 ∧ Grows rest read out.1 := by
  obtain ⟨held, said, filed⟩ := Reading.bind_eq_ok.mp filed
  obtain ⟨keeps, left⟩ := files said
  cases filed
  exact ⟨.inr left, .of_entities keeps rfl⟩

theorem filed_flat {read : AggRead} {header : Matched} {rest : List Line}
    {said : ParseResult AggState} {out : AggRead × List Line}
    (keeps : ∀ {st}, said = .ok st → Keeps read.st st)
    (filed : filed read (flat said rest) = .ok out) :
    Leaves header rest out.2 ∧ Grows rest read out.1 := by
  obtain ⟨held, said, filed⟩ := Reading.bind_eq_ok.mp filed
  obtain ⟨said, left⟩ := flat_ok said
  cases filed
  exact ⟨.inl left, .of_entities (keeps said) rfl⟩

theorem identity_spec {m : Matched} {st st' : AggState} (said : p.identity M m st = .ok st') :
    st.identity.isSome = false ∧ st'.identity.isSome = true ∧ st'.lifecycle = st.lifecycle := by
  obtain ⟨_, -, said⟩ := Reading.bind_eq_ok.mp said
  dsimp only at said
  split at said
  · cases said
  · rename_i empty
    cases said
    exact ⟨Bool.eq_false_iff.mpr empty, rfl, rfl⟩

theorem lifecycle_spec {header : Matched} {st : AggState} {lines : List Line}
    {out : AggState × List Line} (read : p.lifecycle M header st lines = .ok out) :
    st.lifecycle.isSome = false ∧ out.1.lifecycle.isSome = true := by
  rw [lifecycle] at read
  split at read
  · cases read
  · rename_i empty
    obtain ⟨spec, -, read⟩ := Reading.bind_eq_ok.mp read
    cases read
    exact ⟨Bool.eq_false_iff.mpr empty, rfl⟩

theorem ruleLine_keeps {m : Matched} {st st' : AggState} (said : p.ruleLine M m st = .ok st') :
    Keeps st st' := by
  obtain ⟨cond, -, said⟩ := Reading.bind_eq_ok.mp said
  dsimp only at said
  split at said <;> cases said <;> exact .of_same rfl rfl

theorem aggregateLine_grows {read : AggRead} {m : Matched} {rest : List Line}
    {out : AggRead × List Line} (said : p.aggregateLine M read m rest = .ok out) :
    Leaves m rest out.2 ∧ Grows rest read out.1 := by
  rw [aggregateLine] at said
  obtain ⟨-, said⟩ | ⟨-, said⟩ := ite_eq_iff.mp said
  · apply filed_flat _ said
    intro st said
    obtain ⟨empty, full, same⟩ := identity_spec said
    exact ⟨fun _ => full, fun held => same ▸ held⟩
  obtain ⟨-, said⟩ | ⟨-, said⟩ := ite_eq_iff.mp said
  · exact filed_files (has_files m read.st rest) said
  obtain ⟨-, said⟩ | ⟨-, said⟩ := ite_eq_iff.mp said
  · exact filed_files (valueObject_files m read.st rest) said
  obtain ⟨-, said⟩ | ⟨-, said⟩ := ite_eq_iff.mp said
  · exact filed_files (closedSet_files m read.st rest) said
  obtain ⟨-, said⟩ | ⟨-, said⟩ := ite_eq_iff.mp said
  · exact filed_files (valueFields_files m read.st rest) said
  obtain ⟨-, said⟩ | ⟨-, said⟩ := ite_eq_iff.mp said
  · exact filed_files (lifecycle_files m read.st rest) said
  obtain ⟨-, said⟩ | ⟨-, said⟩ := ite_eq_iff.mp said
  · exact filed_files (command_files m read.st rest) said
  obtain ⟨-, said⟩ | ⟨-, said⟩ := ite_eq_iff.mp said
  · exact filed_files (query_files m read.st rest) said
  obtain ⟨-, said⟩ | ⟨-, said⟩ := ite_eq_iff.mp said
  · exact filed_flat ruleLine_keeps said
  obtain ⟨-, said⟩ | ⟨-, said⟩ := ite_eq_iff.mp said
  · apply filed_flat _ said
    intro st said
    obtain ⟨value, -, said⟩ := Reading.bind_eq_ok.mp said
    cases said
    exact .of_same rfl rfl
  obtain ⟨-, said⟩ | ⟨-, said⟩ := ite_eq_iff.mp said
  · cases said
    exact ⟨.inl rfl, .of_entities (.of_same rfl rfl) rfl⟩
  obtain ⟨-, said⟩ | ⟨-, said⟩ := ite_eq_iff.mp said
  · cases said
    refine ⟨.inr rfl, .refl _, fun _ mem => List.mem_append_left _ mem, ?_⟩
    intro place mem
    obtain held | here := List.mem_append.mp mem
    · exact .inl held
    · exact .inr (List.mem_singleton.mp here ▸ rfl)
  · cases said

theorem aggregateLine_identity {read : AggRead} {m : Matched} {rest : List Line}
    {out : AggRead × List Line} (named : m.id = "identity")
    (said : p.aggregateLine M read m rest = .ok out) :
    read.st.identity.isSome = false ∧ out.1.st.identity.isSome = true := by
  rw [aggregateLine, if_pos named] at said
  obtain ⟨held, said, filed⟩ := Reading.bind_eq_ok.mp said
  obtain ⟨empty, full, -⟩ := identity_spec (flat_ok said).1
  cases filed
  exact ⟨empty, full⟩

theorem aggregateLine_lifecycle {read : AggRead} {m : Matched} {rest : List Line}
    {out : AggRead × List Line} (named : m.id = "lifecycle")
    (said : p.aggregateLine M read m rest = .ok out) :
    read.st.lifecycle.isSome = false ∧ out.1.st.lifecycle.isSome = true := by
  simp only [aggregateLine, named, String.reduceEq, if_false, if_true, or_self] at said
  obtain ⟨held, said, filed⟩ := Reading.bind_eq_ok.mp said
  have spec := lifecycle_spec said
  cases filed
  exact spec

theorem aggregateLine_entity {read : AggRead} {m : Matched} {rest : List Line}
    {out : AggRead × List Line} (named : m.id = "entity")
    (said : p.aggregateLine M read m rest = .ok out) : (m, rest) ∈ out.1.entities := by
  simp only [aggregateLine, named, String.reduceEq, if_false, if_true, or_self] at said
  cases said
  exact List.mem_append_right _ List.mem_cons_self

/-! ### What a sentence of a policy does -/

theorem policyLine_keeps {spec : PolicySpec} {m : Matched} {rest : List Line}
    {out : PolicySpec × List Line} (said : p.policyLine M spec m rest = .ok out) :
    (spec.event.isSome = true → out.1.event.isSome = true) ∧
      (spec.reaction.isSome = true → out.1.reaction.isSome = true) := by
  obtain ⟨spec', rest'⟩ := out
  have said := (flat_ok said).1
  dsimp only at said
  obtain ⟨-, said⟩ | ⟨-, said⟩ := ite_eq_iff.mp said
  · cases said
    exact ⟨id, id⟩
  obtain ⟨-, said⟩ | ⟨-, said⟩ := ite_eq_iff.mp said
  · cases said
    exact ⟨id, id⟩
  obtain ⟨-, said⟩ | ⟨-, said⟩ := ite_eq_iff.mp said
  · obtain ⟨cond, -, said⟩ := Reading.bind_eq_ok.mp said
    cases said
    exact ⟨id, id⟩
  obtain ⟨-, said⟩ | ⟨-, said⟩ := ite_eq_iff.mp said
  · obtain ⟨passed, -, said⟩ := Reading.bind_eq_ok.mp said
    cases said
    exact ⟨id, id⟩
  obtain ⟨-, said⟩ | ⟨-, said⟩ := ite_eq_iff.mp said
  · cases said
    exact ⟨id, id⟩
  obtain ⟨-, said⟩ | ⟨-, said⟩ := ite_eq_iff.mp said
  · obtain ⟨-, said⟩ | ⟨-, said⟩ := ite_eq_iff.mp said
    · cases said
    · cases said
      exact ⟨fun _ => rfl, id⟩
  obtain ⟨-, said⟩ | ⟨-, said⟩ := ite_eq_iff.mp said
  · obtain ⟨-, said⟩ | ⟨-, said⟩ := ite_eq_iff.mp said
    · cases said
    · cases said
      exact ⟨id, fun _ => rfl⟩
  · cases said

theorem policyLine_event {spec : PolicySpec} {m : Matched} {rest : List Line}
    {out : PolicySpec × List Line} (named : eventIds.contains m.id = true)
    (said : p.policyLine M spec m rest = .ok out) :
    spec.event.isSome = false ∧ out.1.event.isSome = true := by
  obtain ⟨spec', rest'⟩ := out
  have said := (flat_ok said).1
  dsimp only at said
  have which := List.contains_iff_mem.mp named
  simp only [eventIds, List.mem_cons, List.not_mem_nil, or_false] at which
  obtain id | id | id := which <;> rw [id] at said <;>
    simp only [String.reduceEq, eventIds, List.contains_cons, String.reduceBEq, Bool.or_true,
      Bool.true_or, if_false, if_true, or_self] at said
  all_goals
    obtain ⟨-, said⟩ | ⟨empty, said⟩ := ite_eq_iff.mp said
    · cases said
    · cases said
      exact ⟨Bool.eq_false_iff.mpr empty, rfl⟩

theorem policyLine_reaction {spec : PolicySpec} {m : Matched} {rest : List Line}
    {out : PolicySpec × List Line} (named : reactionIds.contains m.id = true)
    (said : p.policyLine M spec m rest = .ok out) :
    spec.reaction.isSome = false ∧ out.1.reaction.isSome = true := by
  obtain ⟨spec', rest'⟩ := out
  have said := (flat_ok said).1
  dsimp only at said
  have which := List.contains_iff_mem.mp named
  simp only [reactionIds, List.mem_cons, List.not_mem_nil, or_false] at which
  obtain id | id | id | id | id := which <;> rw [id] at said <;>
    simp only [String.reduceEq, eventIds, reactionIds, List.contains_cons, List.contains_nil,
      String.reduceBEq, Bool.or_true, Bool.true_or, Bool.or_self, Bool.false_eq_true, if_false,
      if_true, or_self] at said
  all_goals
    obtain ⟨-, said⟩ | ⟨empty, said⟩ := ite_eq_iff.mp said
    · cases said
    · cases said
      exact ⟨Bool.eq_false_iff.mpr empty, rfl⟩

end Parser

/-! ### Slots -/

/-- What a block's sentences fill once. -/
inductive Slot where
  | kind
  | module
  | version
  | identity
  | lifecycle
  | goal
  | who
  | fromStates
  | provenance
  | event
  | reaction
  | condition
  | targetDomain
  deriving DecidableEq

/-- The blocks a slot is of. -/
def Slot.context : Slot → Context
  | kind | module | version => .vision
  | identity | lifecycle => .aggregate
  | goal | who | fromStates | provenance => .command
  | event | reaction | condition | targetDomain => .policy

/-- The phrases that fill a slot. -/
def Slot.ids : Slot → List String
  | kind => ["classification"]
  | module => ["namespace"]
  | version => ["version"]
  | identity => ["identity"]
  | lifecycle => ["lifecycle"]
  | goal => ["goal"]
  | who => ["role"]
  | fromStates => ["from_states"]
  | provenance => ["command_provenance"]
  | event => Parser.eventIds
  | reaction => Parser.reactionIds
  | condition => ["only_when"]
  | targetDomain => ["policy_across"]

/-- The slots whose reader looks for an earlier sentence. -/
def Slot.guarded : Slot → Bool
  | identity | lifecycle | event | reaction => true
  | _ => false

/-- The phrases that head a block, each with where it stands and what the block is. -/
def headers : List (Context × String × Context) := [
  (.vision, "provides", .provides),
  (.domain, "aggregate", .aggregate),
  (.domain, "policy", .policy),
  (.domain, "process", .process),
  (.domain, "report", .report),
  (.aggregate, "has", .has),
  (.aggregate, "value_object", .valueObject),
  (.aggregate, "value_object_with", .valueObject),
  (.aggregate, "closed_set", .valueObject),
  (.aggregate, "closed_set_named", .valueObject),
  (.aggregate, "value_fields", .fields),
  (.aggregate, "lifecycle", .lifecycle),
  (.aggregate, "command", .command),
  (.aggregate, "query", .query),
  (.aggregate, "entity", .aggregate),
  (.command, "takes", .has),
  (.query, "query_takes", .has),
  (.process, "process_when", .handler),
  (.process, "process_when_refused", .handler)]

namespace Parser

variable (p : Parser)

/-- Whether a line of this place heads such a block. -/
def Heads (context : Context) (line : Line) (sub : Context) : Prop :=
  ∃ id, p.phraseOf context line = some id ∧ (context, id, sub) ∈ headers

/-- The blocks of a file, each by what it is, how far in its header stands and what follows the
header. -/
inductive IsBlock (file : List Line) : Context → Nat → List Line → Prop
  | vision {header : Line} {rest : List Line} (first : file = header :: rest) :
      IsBlock file .vision header.indent rest
  | top {header line : Line} {rest following : List Line} {sub : Context}
      (first : file = header :: rest)
      (own : (line, following) ∈ Layout.ownAt Line.indent none 0 rest)
      (heads : p.Heads .domain line sub) : IsBlock file sub line.indent following
  | nested {context sub : Context} {d : Nat} {lines following : List Line} {line : Line}
      (block : IsBlock file context d lines)
      (own : (line, following) ∈ Layout.own Line.indent d lines)
      (heads : p.Heads context line sub) : IsBlock file sub line.indent following

/-- Whether a line fills the slot. -/
def fills (slot : Slot) (line : Line) : Bool :=
  (p.phraseOf slot.context line).any slot.ids.contains

/-- No block of the file holds two sentences for the slot. -/
def SaidOnce (file : List Line) (slot : Slot) : Prop :=
  ∀ {d lines}, p.IsBlock file slot.context d lines →
    (Layout.own Line.indent d lines).countP (fun place => p.fills slot place.1) ≤ 1

variable {p} {M : Meanings}

theorem Comes.phraseOf {context : Context} {line : Line} {step : Step}
    (comes : p.Comes context line step) :
    (∃ m, step = .phrase m ∧ p.phraseOf context line = some m.id ∧ m.indent = line.indent) ∨
      ((∃ text, step = .prose text) ∧ p.phraseOf context line = none) := by
  cases comes with
  | phrase fits =>
    refine .inl ⟨_, rfl, ?_, rfl⟩
    rw [Parser.phraseOf, fits]
    rfl
  | prose unfit =>
    refine .inr ⟨⟨_, rfl⟩, ?_⟩
    rw [Parser.phraseOf, unfit]

/-- What a reader did with a line that names a phrase. -/
theorem Acts.of_phrase {σ : Type} {context : Context} {describe : σ → Text → σ}
    {say : σ → Matched → List Line → ParseResult (σ × List Line)} {s t : σ} {line : Line}
    {rest : List Line} {id : String} (acts : p.Acts context (takeStep describe say) s line rest t)
    (named : p.phraseOf context line = some id) :
    ∃ m rest', m.id = id ∧ m.indent = line.indent ∧ say s m rest = .ok (t, rest') := by
  obtain ⟨step, rest', comes, taken⟩ := acts
  obtain ⟨m, same, phrase, level⟩ | ⟨-, none⟩ := comes.phraseOf
  · subst same
    refine ⟨m, rest', ?_, level, taken⟩
    exact Option.some.inj (phrase.symm.trans named)
  · rw [named] at none
    cases none

theorem fills_iff {slot : Slot} {line : Line} (filled : p.fills slot line = true) :
    ∃ id, p.phraseOf slot.context line = some id ∧ slot.ids.contains id = true := by
  cases named : p.phraseOf slot.context line with
  | none =>
    rw [fills, named] at filled
    cases filled
  | some id =>
    rw [fills, named] at filled
    exact ⟨id, rfl, filled⟩

/-! ### Blocks that were read -/

section

variable {types : List Text} {depth : Nat} {outer : List ValueObject} {header : Matched}
  {lines : List Line}

theorem aggregateLine_careful :
    Careful (takeStep (fun (read : AggRead) text => { read with st.agg.description := some text })
      (p.aggregateLine M)) :=
  careful_takeStep fun said => (aggregateLine_grows said).1

theorem acts_grows {read read' : AggRead} {line : Line} {rest : List Line}
    (acts : p.Acts .aggregate (takeStep (fun (read : AggRead) text =>
      { read with st.agg.description := some text }) (p.aggregateLine M)) read line rest read') :
    Grows rest read read' := by
  obtain ⟨step, rest', -, taken⟩ := acts
  cases step with
  | prose text =>
    cases taken
    exact .of_entities (.of_same rfl rfl) rfl
  | phrase m => exact (aggregateLine_grows taken).2

/-- An aggregate that is accepted: its sentences in turn, and each entity after them. -/
theorem aggregate_read {out : Aggregate × List Line}
    (read : p.aggregate M types depth outer header lines = .ok out) :
    (∀ slot, slot = .identity ∨ slot = .lifecycle →
      (Layout.own Line.indent header.indent lines).countP (fun place => p.fills slot place.1) ≤ 1) ∧
    ∀ place ∈ Layout.own Line.indent header.indent lines,
      p.phraseOf .aggregate place.1 = some "entity" →
      ∃ depth outer header out, header.indent = place.1.indent ∧
        p.aggregate M types depth outer header place.2 = .ok out := by
  obtain ⟨nested, inner, read⟩ : ∃ nested,
      (∀ {outer m following inner}, nested outer m following = .ok inner →
        ∃ depth, p.aggregate M types depth outer m following = .ok inner) ∧
      p.aggregateWith M types nested outer header lines = .ok out := by
    cases depth with
    | zero =>
      refine ⟨fun _ m _ => .error (p.unmeant m), ?_, read⟩
      intro outer m following inner refused
      cases refused
    | succ depth => exact ⟨p.aggregate M types depth, fun inner => ⟨depth, inner⟩, read⟩
  obtain ⟨held, blocked, read⟩ := Reading.bind_eq_ok.mp read
  obtain ⟨entities, each, -⟩ := Reading.bind_eq_ok.mp read
  obtain ⟨e, under, own, chain⟩ := block_chain aggregateLine_careful blocked
  have under : (some header.indent).all (· < e) = true := decide_eq_true under
  rw [own]
  refine ⟨?_, ?_⟩
  · rintro slot (same | same)
    · subst same
      apply (chain.once under (fun read => read.st.identity.isSome) ?_ ?_).trans
      · split <;> omega
      · intro s t line rest acts fills
        obtain ⟨id, named, among⟩ := fills_iff fills
        obtain ⟨m, rest', same, -, said⟩ := acts.of_phrase named
        apply aggregateLine_identity _ said
        rw [same]
        simpa [Slot.ids] using among
      · exact fun acts held => (acts_grows acts).keeps.identity held
    · subst same
      apply (chain.once under (fun read => read.st.lifecycle.isSome) ?_ ?_).trans
      · split <;> omega
      · intro s t line rest acts fills
        obtain ⟨id, named, among⟩ := fills_iff fills
        obtain ⟨m, rest', same, -, said⟩ := acts.of_phrase named
        apply aggregateLine_lifecycle _ said
        rw [same]
        simpa [Slot.ids] using among
      · exact fun acts held => (acts_grows acts).keeps.lifecycle held
  · -- each entity sentence is on the list at the end, with what follows it
    have filed := (chain.settles under (P := fun line rest read =>
      p.phraseOf .aggregate line = some "entity" →
        ∃ m, m.indent = line.indent ∧ (m, rest) ∈ read.entities) ?_ ?_).2
    · intro place mem named
      obtain ⟨m, level, listed⟩ := filed place mem named
      obtain ⟨entity, made⟩ := Reading.ok_of_mapM each listed
      obtain ⟨inside, nests, -⟩ := Reading.bind_eq_ok.mp made
      obtain ⟨depth, again⟩ := inner nests
      exact ⟨depth, _, m, inside, level, again⟩
    · intro s t line rest acts named
      obtain ⟨m, rest', same, level, said⟩ := acts.of_phrase named
      exact ⟨m, level, aggregateLine_entity same said⟩
    · intro s t line rest line' rest' acts held named
      obtain ⟨m, level, listed⟩ := held named
      exact ⟨m, level, (acts_grows acts).entities listed⟩

theorem policy_read {out : PolicySpec × List Line} (read : p.policy M header lines = .ok out)
    {slot : Slot} (guarded : slot = .event ∨ slot = .reaction) :
    (Layout.own Line.indent header.indent lines).countP (fun place => p.fills slot place.1) ≤
      1 := by
  have careful : Careful (takeStep undescribed (p.policyLine M)) := careful_takeStep flat_leaves
  obtain ⟨e, under, own, chain⟩ := block_chain careful read
  have under : (some header.indent).all (· < e) = true := decide_eq_true under
  have keeps : ∀ {s t : PolicySpec} {line rest},
      p.Acts .policy (takeStep undescribed (p.policyLine M)) s line rest t →
      (s.event.isSome = true → t.event.isSome = true) ∧
        (s.reaction.isSome = true → t.reaction.isSome = true) := by
    intro s t line rest acts
    obtain ⟨step, rest', -, taken⟩ := acts
    cases step with
    | prose text =>
      cases taken
      exact ⟨id, id⟩
    | phrase m => exact policyLine_keeps taken
  rw [own]
  obtain same | same := guarded
  · subst same
    apply (chain.once under (fun spec => spec.event.isSome) ?_ ?_).trans
    · split <;> omega
    · intro s t line rest acts fills
      obtain ⟨id, named, among⟩ := fills_iff fills
      obtain ⟨m, rest', same, -, said⟩ := acts.of_phrase named
      exact policyLine_event (same ▸ among) said
    · exact fun acts => (keeps acts).1
  · subst same
    apply (chain.once under (fun spec => spec.reaction.isSome) ?_ ?_).trans
    · split <;> omega
    · intro s t line rest acts fills
      obtain ⟨id, named, among⟩ := fills_iff fills
      obtain ⟨m, rest', same, -, said⟩ := acts.of_phrase named
      exact policyLine_reaction (same ▸ among) said
    · exact fun acts => (keeps acts).2

end

theorem aggregate_rest {types : List Text} {depth : Nat} {outer : List ValueObject}
    {header : Matched} {lines : List Line} {out : Aggregate × List Line}
    (read : p.aggregate M types depth outer header lines = .ok out) :
    out.2 = Layout.skip Line.indent header.indent lines := by
  obtain ⟨nested, read⟩ : ∃ nested,
      p.aggregateWith M types nested outer header lines = .ok out := by
    cases depth with
    | zero => exact ⟨_, read⟩
    | succ depth => exact ⟨_, read⟩
  obtain ⟨held, blocked, read⟩ := Reading.bind_eq_ok.mp read
  have left := block_rest aggregateLine_careful blocked
  obtain ⟨entities, -, read⟩ := Reading.bind_eq_ok.mp read
  obtain ⟨aggregate, -, read⟩ := Reading.bind_eq_ok.mp read
  cases read
  exact left

theorem processLine_leaves {pm : ProcessManager} {m : Matched} {rest : List Line}
    {out : ProcessManager × List Line} (said : p.processLine M pm m rest = .ok out) :
    Leaves m rest out.2 := by
  rw [processLine] at said
  obtain ⟨-, said⟩ | ⟨-, said⟩ := ite_eq_iff.mp said
  · obtain ⟨handler, blocked, said⟩ := Reading.bind_eq_ok.mp said
    have left := block_rest (careful_takeStep flat_leaves) blocked
    dsimp only at said
    split at said
    · cases said
    · cases said
      exact .inr left
  · exact flat_leaves said

theorem process_rest {header : Matched} {lines : List Line} {out : ProcessManager × List Line}
    (read : p.process M header lines = .ok out) :
    out.2 = Layout.skip Line.indent header.indent lines := by
  obtain ⟨held, blocked, read⟩ := Reading.bind_eq_ok.mp read
  have left := block_rest (careful_takeStep processLine_leaves) blocked
  dsimp only at read
  obtain ⟨-, read⟩ | ⟨-, read⟩ := ite_eq_iff.mp read
  · cases read
  · cases read
    exact left

theorem report_rest {header : Matched} {lines : List Line} {out : ReadModel × List Line}
    (read : p.report M header lines = .ok out) :
    out.2 = Layout.skip Line.indent header.indent lines := by
  obtain ⟨held, blocked, read⟩ := Reading.bind_eq_ok.mp read
  have left := block_rest (careful_takeStep flat_leaves) blocked
  dsimp only at read
  obtain ⟨-, read⟩ | ⟨-, read⟩ := ite_eq_iff.mp read
  · cases read
  · split at read
    · cases read
    · cases read
      exact left

theorem visionLine_leaves {declaration : Bluebook} {m : Matched} {rest : List Line}
    {out : Bluebook × List Line} (said : p.visionLine M declaration m rest = .ok out) :
    Leaves m rest out.2 := by
  rw [visionLine] at said
  obtain ⟨-, said⟩ | ⟨-, said⟩ := ite_eq_iff.mp said
  · obtain ⟨rows, blocked, said⟩ := Reading.bind_eq_ok.mp said
    have careful : Careful (takeStep undescribed (provisionLine (m.textOf "capability"))) := by
      refine careful_takeStep ?_
      intro held row rest out said
      cases said
      exact .inl rfl
    have left := block_rest careful blocked
    cases said
    exact .inr left
  · exact flat_leaves said

/-- What a sentence at the top level leaves, and the block it heads where that is read. -/
theorem domainLine_spec {types : List Text} {read : FileRead} {m : Matched} {rest : List Line}
    {out : FileRead × List Line} (said : p.domainLine M types read m rest = .ok out) :
    Leaves m rest out.2 ∧
      (m.id = "aggregate" → ∃ held, p.aggregate M types rest.length [] m rest = .ok held) ∧
      (m.id = "policy" → ∃ held, p.policy M m rest = .ok held) := by
  rw [domainLine] at said
  obtain ⟨named, said⟩ | ⟨apart, said⟩ := ite_eq_iff.mp said
  · obtain ⟨held, blocked, said⟩ := Reading.bind_eq_ok.mp said
    have left := aggregate_rest blocked
    cases said
    refine ⟨.inr left, fun _ => ⟨held, blocked⟩, fun other => ?_⟩
    rw [named] at other
    exact absurd other (by decide)
  obtain ⟨named, said⟩ | ⟨apart', said⟩ := ite_eq_iff.mp said
  · obtain ⟨held, blocked, said⟩ := Reading.bind_eq_ok.mp said
    have left := block_rest (careful_takeStep flat_leaves) blocked
    cases said
    exact ⟨.inr left, fun other => absurd other apart, fun _ => ⟨held, blocked⟩⟩
  refine ⟨?_, fun other => absurd other apart, fun other => absurd other apart'⟩
  obtain ⟨-, said⟩ | ⟨-, said⟩ := ite_eq_iff.mp said
  · obtain ⟨held, blocked, said⟩ := Reading.bind_eq_ok.mp said
    have left := process_rest blocked
    cases said
    exact .inr left
  obtain ⟨-, said⟩ | ⟨-, said⟩ := ite_eq_iff.mp said
  · obtain ⟨held, blocked, said⟩ := Reading.bind_eq_ok.mp said
    have left := report_rest blocked
    cases said
    exact .inr left
  · cases said

/-- A file that is accepted: its first line, the block under it and the top level. -/
theorem readFile_ok {file : List Line} {bluebook : Bluebook}
    (read : p.readFile M file = .ok bluebook) :
    ∃ first rest header vision held policies, file = first :: rest ∧ first.indent = 0 ∧
      header.indent = 0 ∧ p.visionBlock M header rest = .ok vision ∧
      p.domainBlock M (p.declaredTypes M file) vision.1 vision.2 = .ok (held, []) ∧
      M.policiesOf p held.declaration held.policies = .ok policies ∧
      bluebook = { held.declaration with policies } := by
  obtain ⟨stepped, steps, read⟩ := Reading.bind_eq_ok.mp read
  dsimp only at read
  split at read
  · obtain ⟨vision, visions, read⟩ := Reading.bind_eq_ok.mp read
    obtain ⟨held, domains, read⟩ := Reading.bind_eq_ok.mp read
    obtain ⟨policies, resolved, read⟩ := Reading.bind_eq_ok.mp read
    obtain ⟨first, same, -, level, comes, -⟩ := step_some steps
    have flush : first.indent = 0 := level rfl
    split at read
    · rename_i ended
      cases read
      refine ⟨first, _, _, vision, held.1, policies, same, flush, ?_, visions, ?_, resolved, rfl⟩
      · cases comes
        exact flush
      · rw [domains, ← ended]
    · cases read
  · cases read

theorem domain_read {types : List Text} {declaration : Bluebook} {lines : List Line}
    {out : FileRead × List Line} (read : p.domainBlock M types declaration lines = .ok out) :
    ∀ place ∈ Layout.ownAt Line.indent none 0 lines,
      (p.phraseOf .domain place.1 = some "aggregate" → ∃ header held,
        header.indent = place.1.indent ∧
          p.aggregate M types place.2.length [] header place.2 = .ok held) ∧
      (p.phraseOf .domain place.1 = some "policy" → ∃ header held,
        header.indent = place.1.indent ∧ p.policy M header place.2 = .ok held) := by
  have careful : Careful (takeStep undescribed (p.domainLine M types)) :=
    careful_takeStep fun said => (domainLine_spec said).1
  have chain := (readBlock_chain careful (Nat.le_refl _) (.inl rfl) rfl read).1
  intro place mem
  apply (chain.settles rfl (P := fun line rest _ =>
    (p.phraseOf .domain line = some "aggregate" → ∃ header held,
      header.indent = line.indent ∧ p.aggregate M types rest.length [] header rest = .ok held) ∧
    (p.phraseOf .domain line = some "policy" → ∃ header held,
      header.indent = line.indent ∧ p.policy M header rest = .ok held)) ?_ ?_).2 place mem
  · intro s t line rest acts
    refine ⟨?_, ?_⟩
    · intro named
      obtain ⟨m, rest', same, level, said⟩ := acts.of_phrase named
      obtain ⟨held, blocked⟩ := (domainLine_spec said).2.1 same
      exact ⟨m, held, level, blocked⟩
    · intro named
      obtain ⟨m, rest', same, level, said⟩ := acts.of_phrase named
      obtain ⟨held, blocked⟩ := (domainLine_spec said).2.2 same
      exact ⟨m, held, level, blocked⟩
  · exact fun _ held => held

/-- What a block was read as, where its reader guards a slot. -/
structure WasRead (p : Parser) (M : Meanings) (context : Context) (d : Nat) (lines : List Line) :
    Prop where
  within : context ≠ .domain
  aggregate : context = .aggregate → ∃ types depth outer header out, header.indent = d ∧
    p.aggregate M types depth outer header lines = .ok out
  policy : context = .policy → ∃ header out, header.indent = d ∧
    p.policy M header lines = .ok out

/-- Every block of an accepted file was read as what it is. -/
theorem IsBlock.wasRead {file : List Line} {bluebook : Bluebook}
    (read : p.readFile M file = .ok bluebook) {context : Context} {d : Nat} {lines : List Line}
    (block : p.IsBlock file context d lines) : WasRead p M context d lines := by
  obtain ⟨first, rest, header, vision, held, policies, same, flush, level, visions, domains, -⟩ :=
    readFile_ok read
  induction block with
  | vision => exact ⟨Context.noConfusion, Context.noConfusion, Context.noConfusion⟩
  | @top header' line rest' following sub split own heads =>
    rw [split] at same
    cases same
    -- the top level is what the block under the first line leaves
    have left := block_rest (careful_takeStep visionLine_leaves) visions
    rw [level] at left
    rw [← Layout.ownAt_skip rfl, ← left] at own
    obtain ⟨aggregates, policies⟩ := domain_read domains _ own
    obtain ⟨id, named, listed⟩ := heads
    refine ⟨?_, ?_, ?_⟩
    · intro same
      subst same
      simp [headers] at listed
    · intro same
      subst same
      have id : id = "aggregate" := by simpa [headers] using listed
      subst id
      obtain ⟨header, held, level, read⟩ := aggregates named
      exact ⟨_, _, _, header, held, level, read⟩
    · intro same
      subst same
      have id : id = "policy" := by simpa [headers] using listed
      subst id
      exact policies named
  | @nested context sub d lines following line block own heads ih =>
    obtain ⟨id, named, listed⟩ := heads
    refine ⟨?_, ?_, ?_⟩
    · intro same
      subst same
      simp [headers] at listed
    · intro same
      subst same
      have parent : context = .domain ∧ id = "aggregate" ∨
          context = .aggregate ∧ id = "entity" := by
        simpa [headers] using listed
      obtain ⟨outermost, -⟩ | ⟨inner, entity⟩ := parent
      · exact absurd outermost ih.within
      · subst inner entity
        obtain ⟨types, depth, outer, header, out, level, read⟩ := ih.aggregate rfl
        subst level
        obtain ⟨depth, outer, header, out, level, read⟩ := (aggregate_read read).2 _ own named
        exact ⟨types, depth, outer, header, out, level, read⟩
    · intro same
      subst same
      have parent : context = .domain ∧ id = "policy" := by simpa [headers] using listed
      exact absurd parent.1 ih.within

theorem saidOnce_of_guarded {file : List Line} {bluebook : Bluebook}
    (read : p.readFile M file = .ok bluebook) {slot : Slot} (guarded : slot.guarded = true) :
    p.SaidOnce file slot := by
  intro d lines block
  have was := block.wasRead read
  cases slot with
  | identity =>
    obtain ⟨types, depth, outer, header, out, rfl, read⟩ := was.aggregate rfl
    exact (aggregate_read read).1 _ (.inl rfl)
  | lifecycle =>
    obtain ⟨types, depth, outer, header, out, rfl, read⟩ := was.aggregate rfl
    exact (aggregate_read read).1 _ (.inr rfl)
  | event =>
    obtain ⟨header, out, rfl, read⟩ := was.policy rfl
    exact policy_read read (.inl rfl)
  | reaction =>
    obtain ⟨header, out, rfl, read⟩ := was.policy rfl
    exact policy_read read (.inr rfl)
  | _ => cases guarded

/-- Nothing an accepted file says is lost to a later sentence, as long as it says nothing twice for
a slot whose reader does not look for an earlier sentence. -/
theorem saidOnce_iff {file : List Line} {bluebook : Bluebook}
    (read : p.readFile M file = .ok bluebook) :
    (∀ slot, p.SaidOnce file slot) ↔ ∀ slot, slot.guarded = false → p.SaidOnce file slot := by
  constructor
  · exact fun once slot _ => once slot
  · intro once slot
    cases guarded : slot.guarded with
    | true => exact saidOnce_of_guarded read guarded
    | false => exact once slot guarded

/-- Meanings for texts of ASCII letters and files without conditions, values or changes. -/
def plainMeanings : Meanings where
  cases := ⟨fun c => [c.toUpper], fun c => [c.toLower], isAsciiUpper, lowercase⟩
  readValue text := .bare text
  renderValue _ := []
  canonical text := text
  namingSnake text := lowercase text
  plural text := text ++ ['s']
  attributeOptions _ _ := .ok {}
  memberCells _ _ := .ok []
  changesOf _ _ := .ok none
  withPairs _ _ := .ok []
  whereClause p m _ := .error (p.unmeant m)
  whereClauses _ := []
  finish _ _ _ st _ := .ok st.agg
  policiesOf _ _ _ := .ok []

/-- A domain that says its version twice. -/
def revised : List Line := [
  ⟨1, 0, "Domain: Pages".toList⟩,
  ⟨2, 2, "Its version is 1".toList⟩,
  ⟨3, 2, "Its version is 2".toList⟩]

theorem visionLine_version {declaration : Bluebook} {m : Matched} (named : m.id = "version")
    (rest : List Line) : p.visionLine M declaration m rest =
      .ok ({ declaration with version := some (m.textOf "version") }, rest) := by
  simp only [visionLine, named, String.reduceEq, if_false, if_true, flat]
  rfl

/-- How a version sentence of the revised domain matches. -/
theorem revised_version {g : Grammar} (loaded : Grammar.load = .ok g) :
    ∃ one two, one.id = "version" ∧ two.id = "version" ∧
      matchText g .vision "Its version is 1".toList 3 =
        .ok (one, [("version".toList, ⟨['1'], [], 15⟩)]) ∧
      matchText g .vision "Its version is 2".toList 3 =
        .ok (two, [("version".toList, ⟨['2'], [], 15⟩)]) := by
  obtain ⟨one, fits, named⟩ : ∃ phrase, matchText g .vision "Its version is 1".toList 3 =
      .ok (phrase, [("version".toList, ⟨['1'], [], 15⟩)]) ∧ phrase.id = "version" :=
    matchText_of_load loaded (by decide)
  obtain ⟨two, fits', named'⟩ : ∃ phrase, matchText g .vision "Its version is 2".toList 3 =
      .ok (phrase, [("version".toList, ⟨['2'], [], 15⟩)]) ∧ phrase.id = "version" :=
    matchText_of_load loaded (by decide)
  exact ⟨one, two, named, named', fits, fits'⟩

theorem revised_read (loaded : Grammar.load = .ok p.grammar) :
    p.readFile plainMeanings revised =
      .ok { name := "Pages".toList, version := some ['2'] } := by
  obtain ⟨domain, fits, -⟩ : ∃ phrase, matchText p.grammar .file "Domain: Pages".toList 1 =
      .ok (phrase, [("name".toList, ⟨"Pages".toList, [], 8⟩)]) ∧ phrase.id = "domain" :=
    matchText_of_load loaded (by decide)
  obtain ⟨one, two, named, named', fits', fits''⟩ := revised_version loaded
  have steps : p.step .top .file false revised = .ok (some (.phrase _, _, _)) :=
    step_fits _ rfl rfl fits
  unfold readFile
  rw [Reading.bind_ok_eq steps]
  have visions : p.visionBlock plainMeanings (matchedAt ⟨1, 0, "Domain: Pages".toList⟩
      (domain, [("name".toList, ⟨"Pages".toList, [], 8⟩)])) revised.tail =
        .ok ({ name := "Pages".toList, version := some ['2'] }, []) := by
    apply (readBlock_next (step_fits _ rfl rfl fits') (visionLine_version named _)).trans
    apply (readBlock_next (step_fits _ rfl rfl fits'') (visionLine_version named' _)).trans
    rfl
  exact (Reading.bind_ok_eq visions).trans rfl

/-- The second version is all that is left of two, in a file that is accepted. -/
theorem version_overwrites_version : ∃ (p : Parser) (bluebook : Bluebook),
    Grammar.load = .ok p.grammar ∧ p.readFile plainMeanings revised = .ok bluebook ∧
      bluebook.version = some ['2'] ∧ ¬ p.SaidOnce revised .version := by
  obtain ⟨g, loaded⟩ := load_ok
  obtain ⟨one, two, named, named', fits, fits'⟩ := revised_version loaded
  refine ⟨⟨"pages.bluebook", g⟩, _, loaded, revised_read loaded, rfl, ?_⟩
  intro once
  have twice := once (.vision rfl)
  have first : (⟨"pages.bluebook", g⟩ : Parser).fills .version
      ⟨2, 2, "Its version is 1".toList⟩ = true := by
    simp only [fills, Slot.context, phraseOf, fits, named]
    rfl
  have second : (⟨"pages.bluebook", g⟩ : Parser).fills .version
      ⟨3, 2, "Its version is 2".toList⟩ = true := by
    simp only [fills, Slot.context, phraseOf, fits', named']
    rfl
  have both : List.countP
      (fun place : Line × List Line => (⟨"pages.bluebook", g⟩ : Parser).fills .version place.1)
      [(⟨2, 2, "Its version is 1".toList⟩, [⟨3, 2, "Its version is 2".toList⟩]),
        (⟨3, 2, "Its version is 2".toList⟩, [])] ≤ 1 := twice
  simp only [List.countP_cons, first, second, if_true, List.countP_nil] at both
  omega

/-- What `saidOnce_iff` says of the revised domain. -/
theorem revised_saidOnce_iff : ∃ p : Parser, Grammar.load = .ok p.grammar ∧
    ((∀ slot, p.SaidOnce revised slot) ↔
      ∀ slot, slot.guarded = false → p.SaidOnce revised slot) := by
  obtain ⟨g, loaded⟩ := load_ok
  exact ⟨⟨"pages.bluebook", g⟩, loaded, saidOnce_iff (revised_read loaded)⟩

end Parser

end Hecks.Sentence
