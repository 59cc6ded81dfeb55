import Hecks.Sentence.Slots

/-! One bluebook from several sentence files: each is read alone, what they declare is merged, and
the arguments of the queries are inferred over the whole. -/
namespace Hecks.Sentence

/-! ### The arguments a query's filters name -/

section

variable (M : Meanings)

/-- The argument a rendered value names, where it names one. -/
def symbolicName (rendered : Text) : Option Text :=
  match M.readValue rendered with
  | .symbol name => some name
  | _ => none

/-- Steps down the value objects from an attribute. -/
def memberLeaf (valueObjects : List ValueObject) : Attribute → List Text → Option Attribute
  | held, [] => some held
  | held, name :: names => do
      let valueObject ← valueObjects.find? (·.name = held.typeName)
      let member ← valueObject.attributes.find? (·.name = name)
      memberLeaf valueObjects member names

def localLeaf (attributes : List Attribute) (lifecycle : Option Lifecycle)
    (valueObjects : List ValueObject) (path : Text) : Option Attribute :=
  match splitAt '.' path with
  | [] => none
  | head :: names =>
      if names.isEmpty && lifecycle.any (·.field = head) then
        some { name := head, typeName := "String".toList }
      else do
        let first ← attributes.find? (·.name = head)
        memberLeaf valueObjects first names

/-- The aggregate a reference attribute names. -/
def referenceTarget (held : Attribute) : Option Text := do
  let rest ← after "Reference<" held.typeName
  if rest.getLast? = some '>' then some rest.dropLast else none

/-- The last of the parts between `::`, of no more characters than `fuel`. -/
def lastPart : (fuel : Nat) → (part text : Text) → Text
  | 0, part, _ => part
  | _ + 1, part, [] => part
  | fuel + 1, part, c :: cs =>
      match after "::" (c :: cs) with
      | some rest => lastPart fuel [] rest
      | none => lastPart fuel (part ++ [c]) cs

/-- The aggregate the hops lead to. -/
def hopTarget (aggregates : List Aggregate) : Aggregate → List Text → Option Aggregate
  | target, [] => some target
  | target, hop :: hops => do
      let reference ← target.attributes.find? (·.name = hop)
      let name ← referenceTarget reference
      let next ← aggregates.find? fun a => a.name = name ∨
        lastPart a.name.length [] a.name = lastPart name.length [] name
      hopTarget aggregates next hops

def hopLeaf (owner : Aggregate) (aggregates : List Aggregate) (path : Text) : Option Attribute :=
  let segments := splitAt '/' path
  let tail := segments.getLastD []
  let hops := segments.dropLast
  if hops.isEmpty || tail.isEmpty then none
  else do
    let target ← hopTarget aggregates owner hops
    localLeaf target.attributes target.lifecycle target.valueObjects tail

def appendUnlessDeclared (query : Query) (name : Text) (leaf : Attribute) : Query :=
  if query.attributes.any (·.name = name) then query
  else
    { query with
      attributes := query.attributes ++ [{ name, typeName := leaf.typeName, list := leaf.list }] }

/-- The argument one filter names, where the field it compares has a leaf. -/
def inferClause (leaf : Text → Option Attribute) (query : Query) (clause : WhereClause) : Query :=
  match symbolicName M clause.value, leaf clause.field with
  | some name, some held => appendUnlessDeclared query name held
  | _, _ => query

def requireDeclaredSymbol (file : String) (ownerName : Text) (query : Query) (rendered : Text) :
    ParseResult Unit :=
  match symbolicName M rendered with
  | none => .ok ()
  | some name =>
      if query.attributes.any (·.name = name) then .ok ()
      else
        .error { file, line := 0, message :=
          s!"{String.ofList ownerName}.{String.ofList query.name} resolves " ++
          s!":{String.ofList name} from its arguments, but declares no {String.ofList name} " ++
          "attribute" }

/-- Local fields first, then reference hops where there are any. -/
def inferQuery (file : String) (ownerName : Text) (field : Text → Option Attribute)
    (hop : Option (Text → Option Attribute)) (query : Query) : ParseResult Query := do
  let flat := query.wheres.filter fun clause => !clause.field.contains '/'
  let hops := query.wheres.filter fun clause => clause.field.contains '/'
  let held := flat.foldl (inferClause M field) query
  let held := match hop with
    | none => held
    | some leaf => hops.foldl (inferClause M leaf) held
  held.wheres.forM fun clause => requireDeclaredSymbol M file ownerName held clause.value
  held.limit.toList.forM fun limit => requireDeclaredSymbol M file ownerName held limit.value
  held.options.offset.toList.forM fun offset =>
    requireDeclaredSymbol M file ownerName held offset.value
  return held

def Entity.name : Entity → Text
  | .mk name _ _ _ _ _ _ _ _ _ => name

def Entity.attributes : Entity → List Attribute
  | .mk _ _ _ attributes _ _ _ _ _ _ => attributes

def Entity.queries : Entity → List Query
  | .mk _ _ _ _ _ queries _ _ _ _ => queries

def Entity.lifecycle : Entity → Option Lifecycle
  | .mk _ _ _ _ _ _ _ _ _ lifecycle => lifecycle

def Entity.withQueries (queries : List Query) : Entity → Entity
  | .mk name description identifiedBy attributes commands _ entities preconditions invariants
      lifecycle =>
    .mk name description identifiedBy attributes commands queries entities preconditions invariants
      lifecycle

def inferEntity (file : String) (owner : Aggregate) (aggregateName : Text) (entity : Entity) :
    ParseResult Entity := do
  match owner.entities.find? (·.name = entity.name) with
  | none => return entity
  | some shape =>
      let queries ← entity.queries.mapM (inferQuery M file
        (aggregateName ++ "::".toList ++ entity.name)
        (localLeaf shape.attributes shape.lifecycle owner.valueObjects) none)
      return entity.withQueries queries

def inferAggregate (file : String) (shapes : List Aggregate) (aggregate : Aggregate) :
    ParseResult Aggregate := do
  match shapes.find? (·.name = aggregate.name) with
  | none => return aggregate
  | some owner =>
      let queries ← aggregate.queries.mapM (inferQuery M file aggregate.name
        (localLeaf owner.attributes owner.lifecycle owner.valueObjects)
        (some (hopLeaf owner shapes)))
      let entities ← aggregate.entities.mapM (inferEntity M file owner aggregate.name)
      return { aggregate with queries, entities }

/-- `query_inference::apply` -/
def inferArguments (file : String) (declaration : Bluebook) : ParseResult Bluebook := do
  let aggregates ← declaration.aggregates.mapM (inferAggregate M file declaration.aggregates)
  return { declaration with aggregates }

/-! ### Merging -/

/-- Parses one file alone. -/
def parseFile (g : Grammar) (file : String × Text) : ParseResult Bluebook := do
  let lines ← readLines file.1 file.2
  (⟨file.1, g⟩ : Parser).readFile M lines

/-- The declaration with what a later file declares. -/
def merge (declaration parsed : Bluebook) : Bluebook :=
  { declaration with
    aggregates := declaration.aggregates ++ parsed.aggregates
    policies := declaration.policies ++ parsed.policies
    readModels := declaration.readModels ++ parsed.readModels
    processManagers := declaration.processManagers ++ parsed.processManagers
    vision := declaration.vision.or parsed.vision }

def mergeFile (g : Grammar) (declarationName : Text) (merged : Option Bluebook)
    (file : String × Text) : ParseResult (Option Bluebook) := do
  let parsed ← parseFile M g file
  if parsed.name ≠ declarationName then
    throw { file := file.1, line := 1, message :=
      s!"--bluebook {String.ofList declarationName} was requested, but this file declares " ++
      s!"'{String.ofList parsed.name}'" }
  match merged with
  | none => return some parsed
  | some declaration => return some (merge declaration parsed)

/-- Parses the files with the phrases as they were loaded. -/
def parseLoaded (loaded : Except String Grammar) (declarationName : Text)
    (files : List (String × Text)) : ParseResult Bluebook := do
  match loaded with
  | .error reason => throw { file := "<phrases>", line := 0, message := reason }
  | .ok g =>
      match ← files.foldlM (mergeFile M g declarationName) none with
      | none =>
          throw { file := "<none>", line := 0,
                  message := "hecks-parse bluebook requires at least one file" }
      | some declaration =>
          inferArguments M ((files.head?.map (·.1)).getD "<none>") declaration

/-- Parses every sentence-form file of one bluebook and merges what they declare. -/
def parseBluebook (declarationName : Text) (files : List (String × Text)) :
    ParseResult Bluebook := parseLoaded M Grammar.load declarationName files

end

/-! ### What inference keeps -/

/-- The query with more arguments after its own. -/
def QueryGrown (query grown : Query) : Prop :=
  ∃ more, grown = { query with attributes := query.attributes ++ more }

def EntityGrown (entity grown : Entity) : Prop :=
  ∃ queries, List.Forall₂ QueryGrown entity.queries queries ∧ grown = entity.withQueries queries

/-- The aggregate with more arguments to its queries and its entities' queries. -/
def AggregateGrown (aggregate grown : Aggregate) : Prop :=
  ∃ queries entities, List.Forall₂ QueryGrown aggregate.queries queries ∧
    List.Forall₂ EntityGrown aggregate.entities entities ∧
      grown = { aggregate with queries, entities }

section

variable {M : Meanings}

theorem QueryGrown.refl (query : Query) : QueryGrown query query := by
  refine ⟨[], ?_⟩
  rw [List.append_nil]

theorem QueryGrown.trans {q q' q'' : Query} (h : QueryGrown q q') (h' : QueryGrown q' q'') :
    QueryGrown q q'' := by
  obtain ⟨more, rfl⟩ := h
  obtain ⟨others, rfl⟩ := h'
  exact ⟨more ++ others, by simp only [List.append_assoc]⟩

theorem inferClause_grown (leaf : Text → Option Attribute) (query : Query) (clause : WhereClause) :
    QueryGrown query (inferClause M leaf query clause) := by
  rw [inferClause]
  split
  · rw [appendUnlessDeclared]
    split
    · exact .refl query
    · exact ⟨_, rfl⟩
  · exact .refl query

theorem foldl_grown (leaf : Text → Option Attribute) (query : Query) (clauses : List WhereClause) :
    QueryGrown query (clauses.foldl (inferClause M leaf) query) := by
  induction clauses generalizing query with
  | nil => exact .refl query
  | cons clause clauses ih => exact (inferClause_grown leaf query clause).trans (ih _)

theorem inferQuery_grown {file : String} {ownerName : Text} {field : Text → Option Attribute}
    {hop : Option (Text → Option Attribute)} {query grown : Query}
    (inferred : inferQuery M file ownerName field hop query = .ok grown) :
    QueryGrown query grown := by
  unfold inferQuery at inferred
  obtain ⟨_, -, inferred⟩ := Reading.bind_eq_ok.mp inferred
  obtain ⟨_, -, inferred⟩ := Reading.bind_eq_ok.mp inferred
  obtain ⟨_, -, inferred⟩ := Reading.bind_eq_ok.mp inferred
  cases inferred
  cases hop with
  | none => exact foldl_grown field query _
  | some leaf => exact (foldl_grown field query _).trans (foldl_grown leaf _ _)

theorem inferEntity_grown {file : String} {owner : Aggregate} {name : Text} {entity grown : Entity}
    (inferred : inferEntity M file owner name entity = .ok grown) : EntityGrown entity grown := by
  unfold inferEntity at inferred
  split at inferred
  · cases inferred
    refine ⟨entity.queries, ?_, ?_⟩
    · exact List.forall₂_same.mpr fun query _ => .refl query
    · cases entity
      rfl
  · obtain ⟨queries, each, inferred⟩ := Reading.bind_eq_ok.mp inferred
    cases inferred
    exact ⟨queries, (Reading.forall₂_of_mapM each).imp fun _ _ => inferQuery_grown, rfl⟩

theorem EntityGrown.refl (entity : Entity) : EntityGrown entity entity := by
  refine ⟨entity.queries, List.forall₂_same.mpr fun query _ => .refl query, ?_⟩
  cases entity
  rfl

theorem inferAggregate_grown {file : String} {shapes : List Aggregate} {a grown : Aggregate}
    (inferred : inferAggregate M file shapes a = .ok grown) : AggregateGrown a grown := by
  unfold inferAggregate at inferred
  split at inferred
  · cases inferred
    exact ⟨a.queries, a.entities, List.forall₂_same.mpr fun query _ => .refl query,
      List.forall₂_same.mpr fun entity _ => .refl entity, rfl⟩
  · obtain ⟨queries, each, inferred⟩ := Reading.bind_eq_ok.mp inferred
    obtain ⟨entities, each', inferred⟩ := Reading.bind_eq_ok.mp inferred
    cases inferred
    exact ⟨queries, entities, (Reading.forall₂_of_mapM each).imp fun _ _ => inferQuery_grown,
      (Reading.forall₂_of_mapM each').imp fun _ _ => inferEntity_grown, rfl⟩

/-! ### What a merge keeps -/

theorem merge_each {α : Type} (field : Bluebook → List α)
    (each : ∀ declaration parsed, field (merge declaration parsed) =
      field declaration ++ field parsed) (first : Bluebook) (later : List Bluebook) :
    field (later.foldl merge first) = (first :: later).flatMap field := by
  induction later generalizing first with
  | nil => exact (List.append_nil _).symm
  | cons parsed later ih =>
    rw [List.foldl_cons, ih, List.flatMap_cons, each, List.append_assoc]
    rfl

theorem merge_first {α : Type} (field : Bluebook → α)
    (keeps : ∀ declaration parsed, field (merge declaration parsed) = field declaration)
    (first : Bluebook) (later : List Bluebook) : field (later.foldl merge first) = field first := by
  induction later generalizing first with
  | nil => rfl
  | cons parsed later ih => rw [List.foldl_cons, ih, keeps]

/-- What some file declares is what one of them does. -/
def Declared (parsed : List Bluebook) (field : Bluebook → Option Text) (merged : Bluebook) : Prop :=
  (∃ b ∈ parsed, (field b).isSome = true) →
    ∃ b ∈ parsed, (field b).isSome = true ∧ field merged = field b

/-- The first vision of the files. -/
theorem merge_vision (first : Bluebook) (later : List Bluebook) :
    (later.foldl merge first).vision = (first :: later).findSome? Bluebook.vision := by
  induction later generalizing first with
  | nil =>
    rw [List.findSome?_cons, List.foldl_nil]
    cases first.vision <;> rfl
  | cons parsed later ih =>
    rw [List.foldl_cons, ih, List.findSome?_cons, List.findSome?_cons, List.findSome?_cons]
    have both : (merge first parsed).vision = first.vision.or parsed.vision := rfl
    rw [both]
    cases first.vision <;> rfl

theorem declared_vision (first : Bluebook) (later : List Bluebook) :
    Declared (first :: later) Bluebook.vision (later.foldl merge first) := by
  rintro ⟨b, mem, said⟩
  rw [merge_vision]
  have some : ((first :: later).findSome? Bluebook.vision).isSome = true :=
    List.findSome?_isSome_iff.mpr ⟨b, mem, said⟩
  obtain ⟨vision, found⟩ := Option.isSome_iff_exists.mp some
  obtain ⟨c, mem, same⟩ := List.exists_of_findSome?_eq_some found
  exact ⟨c, mem, by rw [same]; rfl, found.trans same.symm⟩

/-- A field the merge leaves as it is holds what some file declares if the first file declares it
whenever a later one does. -/
theorem declared_iff (field : Bluebook → Option Text)
    (keeps : ∀ declaration parsed, field (merge declaration parsed) = field declaration)
    (first : Bluebook) (later : List Bluebook) :
    Declared (first :: later) field (later.foldl merge first) ↔
      ((∃ b ∈ later, (field b).isSome = true) → (field first).isSome = true) := by
  rw [Declared, merge_first field keeps]
  constructor
  · rintro held ⟨b, mem, said⟩
    obtain ⟨c, -, said, same⟩ := held ⟨b, List.mem_cons_of_mem first mem, said⟩
    rw [same]
    exact said
  · rintro held ⟨b, mem, said⟩
    refine ⟨first, List.mem_cons_self, ?_, rfl⟩
    obtain here | later := List.mem_cons.mp mem
    · exact here ▸ said
    · exact held ⟨b, later, said⟩

theorem mergeFile_ok {g : Grammar} {name : Text} {held merged : Option Bluebook}
    {file : String × Text} (accepted : mergeFile M g name held file = .ok merged) :
    ∃ parsed, parseFile M g file = .ok parsed ∧
      merged = some (held.elim parsed (merge · parsed)) := by
  obtain ⟨parsed, alone, accepted⟩ := Reading.bind_eq_ok.mp accepted
  obtain ⟨-, accepted⟩ | ⟨-, accepted⟩ := ite_eq_iff.mp accepted
  · cases accepted
  · cases held with
    | none =>
      cases accepted
      exact ⟨parsed, alone, rfl⟩
    | some declaration =>
      cases accepted
      exact ⟨parsed, alone, rfl⟩

theorem mergeFiles_ok {g : Grammar} {name : Text} {held merged : Bluebook}
    {files : List (String × Text)}
    (accepted : files.foldlM (mergeFile M g name) (some held) = .ok (some merged)) :
    ∃ parsed, files.mapM (parseFile M g) = .ok parsed ∧ merged = parsed.foldl merge held := by
  induction files generalizing held with
  | nil =>
    cases accepted
    exact ⟨[], rfl, rfl⟩
  | cons file files ih =>
    rw [List.foldlM_cons] at accepted
    obtain ⟨next, here, accepted⟩ := Reading.bind_eq_ok.mp accepted
    obtain ⟨parsed, alone, rfl⟩ := mergeFile_ok here
    obtain ⟨others, rest, same⟩ := ih accepted
    refine ⟨parsed :: others, ?_, same⟩
    rw [List.mapM_cons, alone, Reading.bind_ok_eq rfl, rest]
    rfl

/-- A bluebook that is accepted: each file alone, the merge of them and the arguments inferred. -/
theorem parseLoaded_ok {loaded : Except String Grammar} {name : Text}
    {files : List (String × Text)} {bluebook : Bluebook}
    (accepted : parseLoaded M loaded name files = .ok bluebook) :
    ∃ g first later aggregates, loaded = .ok g ∧
      files.mapM (parseFile M g) = .ok (first :: later) ∧
      List.Forall₂ AggregateGrown (later.foldl merge first).aggregates aggregates ∧
      bluebook = { later.foldl merge first with aggregates } := by
  cases loaded with
  | error => cases accepted
  | ok g =>
    obtain ⟨merged, each, accepted⟩ := Reading.bind_eq_ok.mp accepted
    cases files with
    | nil =>
      cases each
      cases accepted
    | cons file files =>
      rw [List.foldlM_cons] at each
      obtain ⟨next, here, each⟩ := Reading.bind_eq_ok.mp each
      obtain ⟨first, alone, rfl⟩ := mergeFile_ok here
      cases merged with
      | none => cases accepted
      | some declaration =>
        obtain ⟨later, rest, same⟩ := mergeFiles_ok each
        obtain ⟨aggregates, inferred, accepted⟩ := Reading.bind_eq_ok.mp accepted
        cases accepted
        refine ⟨g, first, later, aggregates, rfl, ?_, ?_, ?_⟩
        · rw [List.mapM_cons, alone, Reading.bind_ok_eq rfl, rest]
          rfl
        · rw [← show declaration = later.foldl merge first from same]
          exact (Reading.forall₂_of_mapM inferred).imp fun _ _ => inferAggregate_grown
        · rw [← show declaration = later.foldl merge first from same]

/-- Every declaration of the files, in their order, and each single one that some file makes. -/
structure LosesNothing (parsed : List Bluebook) (merged : Bluebook) : Prop where
  aggregates : List.Forall₂ AggregateGrown (parsed.flatMap (·.aggregates)) merged.aggregates
  policies : merged.policies = parsed.flatMap (·.policies)
  readModels : merged.readModels = parsed.flatMap (·.readModels)
  processManagers : merged.processManagers = parsed.flatMap (·.processManagers)
  provides : merged.provides = parsed.flatMap (·.provides)
  attachesTo : merged.attachesTo = parsed.flatMap (·.attachesTo)
  classification : Declared parsed Bluebook.classification merged
  module : Declared parsed Bluebook.namespace merged
  version : Declared parsed Bluebook.version merged
  vision : Declared parsed Bluebook.vision merged

/-- The first file alone provides and attaches, and declares the kind, the module and the version
that any file declares. -/
structure FirstDeclares (first : Bluebook) (later : List Bluebook) : Prop where
  provides : ∀ b ∈ later, b.provides = []
  attachesTo : ∀ b ∈ later, b.attachesTo = []
  classification : (∃ b ∈ later, b.classification.isSome = true) →
    first.classification.isSome = true
  module : (∃ b ∈ later, b.namespace.isSome = true) → first.namespace.isSome = true
  version : (∃ b ∈ later, b.version.isSome = true) → first.version.isSome = true

theorem first_eq_flatMap_iff {α : Type} (field : Bluebook → List α) {first : Bluebook}
    {later : List Bluebook} : field first = (first :: later).flatMap field ↔
      ∀ b ∈ later, field b = [] := by
  rw [List.flatMap_cons, List.self_eq_append_right, List.flatMap_eq_nil_iff]

/-- Merging the files of a domain loses nothing exactly when no later file declares what only the
first may. -/
theorem losesNothing_iff {name : Text} {files : List (String × Text)} {bluebook : Bluebook}
    (accepted : parseBluebook M name files = .ok bluebook) :
    ∃ g first later, Grammar.load = .ok g ∧
      files.mapM (parseFile M g) = .ok (first :: later) ∧
      (LosesNothing (first :: later) bluebook ↔ FirstDeclares first later) := by
  obtain ⟨g, first, later, aggregates, loaded, alone, grown, rfl⟩ := parseLoaded_ok accepted
  refine ⟨g, first, later, loaded, alone, ?_, ?_⟩
  · intro held
    constructor
    · apply (first_eq_flatMap_iff Bluebook.provides).mp
      exact (merge_first Bluebook.provides (fun _ _ => rfl) first later).symm.trans held.provides
    · apply (first_eq_flatMap_iff Bluebook.attachesTo).mp
      exact (merge_first Bluebook.attachesTo (fun _ _ => rfl) first later).symm.trans
        held.attachesTo
    · exact (declared_iff Bluebook.classification (fun _ _ => rfl) first later).mp
        held.classification
    · exact (declared_iff Bluebook.namespace (fun _ _ => rfl) first later).mp held.module
    · exact (declared_iff Bluebook.version (fun _ _ => rfl) first later).mp held.version
  · intro held
    constructor
    · rw [← merge_each Bluebook.aggregates fun _ _ => rfl]
      exact grown
    · exact merge_each Bluebook.policies (fun _ _ => rfl) first later
    · exact merge_each Bluebook.readModels (fun _ _ => rfl) first later
    · exact merge_each Bluebook.processManagers (fun _ _ => rfl) first later
    · exact (merge_first Bluebook.provides (fun _ _ => rfl) first later).trans
        ((first_eq_flatMap_iff Bluebook.provides).mpr held.provides)
    · exact (merge_first Bluebook.attachesTo (fun _ _ => rfl) first later).trans
        ((first_eq_flatMap_iff Bluebook.attachesTo).mpr held.attachesTo)
    · exact (declared_iff Bluebook.classification (fun _ _ => rfl) first later).mpr
        held.classification
    · exact (declared_iff Bluebook.namespace (fun _ _ => rfl) first later).mpr held.module
    · exact (declared_iff Bluebook.version (fun _ _ => rfl) first later).mpr held.version
    · exact declared_vision first later

end

/-! ### A version said by the second file -/

def pagesFile : String × Text := ("pages.bluebook", "Domain: Pages".toList)

def versionFile : String × Text := ("version.bluebook", "Domain: Pages\n  Its version is 2".toList)

section

variable {g : Grammar}

theorem lines_of_toOption {read : ParseResult (List Line)} {lines : List Line}
    (some : read.toOption = some lines) : read = .ok lines := by
  cases read with
  | error => cases some
  | ok held => exact congrArg Except.ok (Option.some.inj some)

theorem pages_domain (loaded : Grammar.load = .ok g) :
    ∃ phrase, matchText g .file "Domain: Pages".toList 1 =
      .ok (phrase, [("name".toList, ⟨"Pages".toList, [], 8⟩)]) ∧ phrase.id = "domain" :=
  matchText_of_load loaded (by decide)

theorem parseFile_pages (loaded : Grammar.load = .ok g) :
    parseFile Parser.plainMeanings g pagesFile = .ok { name := "Pages".toList } := by
  obtain ⟨domain, fits, -⟩ := pages_domain loaded
  have lines : readLines "pages.bluebook" "Domain: Pages".toList =
      .ok [⟨1, 0, "Domain: Pages".toList⟩] := lines_of_toOption (by decide)
  have steps : (⟨"pages.bluebook", g⟩ : Parser).step .top .file false
      [⟨1, 0, "Domain: Pages".toList⟩] = .ok (some (.phrase _, _, _)) :=
    Parser.step_fits _ rfl rfl fits
  unfold parseFile
  apply (Reading.bind_ok_eq lines).trans
  unfold Parser.readFile
  exact (Reading.bind_ok_eq steps).trans rfl

theorem parseFile_version (loaded : Grammar.load = .ok g) :
    parseFile Parser.plainMeanings g versionFile =
      .ok { name := "Pages".toList, version := some ['2'] } := by
  obtain ⟨domain, fits, -⟩ := pages_domain loaded
  obtain ⟨phrase, fits', named⟩ : ∃ phrase, matchText g .vision "Its version is 2".toList 3 =
      .ok (phrase, [("version".toList, ⟨['2'], [], 15⟩)]) ∧ phrase.id = "version" :=
    matchText_of_load loaded (by decide)
  have lines : readLines "version.bluebook" "Domain: Pages\n  Its version is 2".toList =
      .ok [⟨1, 0, "Domain: Pages".toList⟩, ⟨2, 2, "Its version is 2".toList⟩] :=
    lines_of_toOption (by decide)
  have steps : (⟨"version.bluebook", g⟩ : Parser).step .top .file false
      [⟨1, 0, "Domain: Pages".toList⟩, ⟨2, 2, "Its version is 2".toList⟩] =
        .ok (some (.phrase _, _, _)) := Parser.step_fits _ rfl rfl fits
  have visions : (⟨"version.bluebook", g⟩ : Parser).visionBlock Parser.plainMeanings
      (Parser.matchedAt ⟨1, 0, "Domain: Pages".toList⟩
        (domain, [("name".toList, ⟨"Pages".toList, [], 8⟩)]))
      [⟨2, 2, "Its version is 2".toList⟩] =
        .ok ({ name := "Pages".toList, version := some ['2'] }, []) :=
    (Parser.readBlock_next (Parser.step_fits _ rfl rfl fits')
      (Parser.visionLine_version named _)).trans rfl
  unfold parseFile
  apply (Reading.bind_ok_eq lines).trans
  unfold Parser.readFile
  apply (Reading.bind_ok_eq steps).trans
  exact (Reading.bind_ok_eq visions).trans rfl

theorem parseBluebook_pages : parseBluebook Parser.plainMeanings "Pages".toList
    [pagesFile, versionFile] = .ok { name := "Pages".toList } := by
  obtain ⟨g, loaded⟩ := load_ok
  have first : mergeFile Parser.plainMeanings g "Pages".toList none pagesFile =
      .ok (some { name := "Pages".toList }) :=
    (Reading.bind_ok_eq (parseFile_pages loaded)).trans rfl
  have second : mergeFile Parser.plainMeanings g "Pages".toList
      (some { name := "Pages".toList }) versionFile = .ok (some { name := "Pages".toList }) :=
    (Reading.bind_ok_eq (parseFile_version loaded)).trans rfl
  have merged : [pagesFile, versionFile].foldlM
      (mergeFile Parser.plainMeanings g "Pages".toList) none =
        .ok (some { name := "Pages".toList }) := by
    rw [List.foldlM_cons]
    exact (Reading.bind_ok_eq first).trans ((Reading.bind_ok_eq second).trans rfl)
  rw [parseBluebook, loaded]
  exact (Reading.bind_ok_eq merged).trans rfl

/-- The second file's version is lost, in a bluebook that is accepted. -/
theorem version_is_lost : ∃ g parsed merged, Grammar.load = .ok g ∧
    parseBluebook Parser.plainMeanings "Pages".toList [pagesFile, versionFile] = .ok merged ∧
    [pagesFile, versionFile].mapM (parseFile Parser.plainMeanings g) = .ok parsed ∧
    ¬ LosesNothing parsed merged := by
  obtain ⟨g, loaded⟩ := load_ok
  refine ⟨g, [{ name := "Pages".toList }, { name := "Pages".toList, version := some ['2'] }],
    _, loaded, parseBluebook_pages, ?_, ?_⟩
  · rw [List.mapM_cons, parseFile_pages loaded, Reading.bind_ok_eq rfl, List.mapM_cons,
      parseFile_version loaded]
    rfl
  · intro kept
    obtain ⟨b, -, said, same⟩ := kept.version ⟨_, List.mem_cons_of_mem _ List.mem_cons_self, rfl⟩
    rw [← same] at said
    cases said

/-- What `losesNothing_iff` says of the two files. -/
theorem pages_losesNothing_iff : ∃ g first later, Grammar.load = .ok g ∧
    [pagesFile, versionFile].mapM (parseFile Parser.plainMeanings g) = .ok (first :: later) ∧
    (LosesNothing (first :: later) { name := "Pages".toList } ↔ FirstDeclares first later) :=
  losesNothing_iff parseBluebook_pages

end

end Hecks.Sentence
