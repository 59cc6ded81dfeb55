import Hecks.Sentence.Lines

/-! What a sentence file is lowered to, and how an author's words become names in it. -/
namespace Hecks.Sentence

/-- `ruby_value::Value`, a float by its spelling. -/
inductive Value where
  | nil
  | bool (b : Bool)
  | int (n : Int)
  | float (spelling : Text)
  | str (text : Text)
  | symbol (name : Text)
  | hash (pairs : List (Text × Value))
  | array (items : List Value)
  | bare (text : Text)

structure Attribute where
  name : Text
  typeName : Text := []
  list : Bool := false
  default : Option Value := none
  optional : Bool := false
  pattern : Option Text := none
  admits : Option Text := none
  relationship : Option String := none

structure Given where
  description : Option Text
  canonical : Text

structure ProjectedField where
  name : Text
  reference : Text
  remoteField : Text

inductive CommandFrom where
  | single (state : Text)
  | multiple (states : List Text)

inductive MutationSource where
  | argument (name : Text)
  | literal (value : Value)
  | state (name : Text)
  | expression (text : Text)

inductive Mutation where
  | append (target : Text) (fields : List (Text × Text))
  | delegate (target : Text) (fields : List (Text × Text))
  | correction (target : Text) (fields : List (Text × Text))
  | other (target : Text) (op sign : String) (source : Option MutationSource)

structure Command where
  name : Text
  role : Option Text
  roles : List Text
  goal : Option Text
  references : Option Text
  attributes : List Attribute
  givens : List Given
  ensures : List Given
  mutations : List Mutation
  emits : List Text
  source : Option CommandFrom
  provenance : Option Value
  idempotent : Bool

structure StateTransitionRow where
  command : Text
  toState : Text
  fromState : Option Text

structure Lifecycle where
  field : Text
  default : Text
  transitions : List StateTransitionRow
  marks : List (Text × List Text)

structure WhereClause where
  field : Text
  op : String
  value : Text
  target : Option Text

structure OrderBy where
  field : Text
  direction : String
  target : Option Text

structure LimitSpec where
  value : Text
  target : Option Text

structure OffsetSpec where
  value : Text
  target : Option Text

structure AuthorizationSpec where
  policy : Text
  tenant : Option Text

structure QueryOptions where
  offset : Option OffsetSpec := none
  cursor : Option Text := none
  authorization : Option AuthorizationSpec := none
  nullSemantics : Option Text := none
  inspection : Option Text := none

structure Query where
  name : Text
  description : Option Text := none
  attributes : List Attribute := []
  wheres : List WhereClause := []
  orderBy : Option OrderBy := none
  limit : Option LimitSpec := none
  options : QueryOptions := {}
  returns : Option Text := none

structure ValueObject where
  name : Text
  attributes : List Attribute := []
  invariants : List Given := []
  closedSet : Bool := false
  members : List (List (Text × Value)) := []

inductive Entity where
  | mk (name : Text) (description : Option Text) (identifiedBy : List Text)
      (attributes : List Attribute) (commands : List Command) (queries : List Query)
      (entities : List Entity) (preconditions invariants : List Given)
      (lifecycle : Option Lifecycle)

structure Aggregate where
  name : Text
  description : Option Text := none
  identifiedBy : List Text := []
  attributes : List Attribute := []
  valueObjects : List ValueObject := []
  commands : List Command := []
  invariants : List Given := []
  preconditions : List Given := []
  projectedFields : List ProjectedField := []
  lifecycle : Option Lifecycle := none
  entities : List Entity := []
  queries : List Query := []
  provenance : Option Value := none

structure AggregateHead where
  aggregate : Text
  asName : Text
  many : Bool

structure ReadModel where
  name : Text
  description : Option Text := none
  referenceName : Option Text := none
  referenceTarget : Option Text := none
  queryName : Text
  wheres : List WhereClause := []
  orderBy : Option OrderBy := none
  limit : Option LimitSpec := none
  aggregateHeads : List AggregateHead := []
  groupBy : List Text := []
  count : Bool := false
  medianField : Option Text := none
  sumField : Option Text := none
  avgField : Option Text := none
  minField : Option Text := none
  maxField : Option Text := none
  percentileField : Option Text := none
  percentileAt : Option Text := none
  anyField : Option Text := none
  allField : Option Text := none
  options : QueryOptions := {}

structure Policy where
  name : Text
  onEvent : Option Text
  triggerCommand : Option Text
  ask : Option Text
  targetDomain : Option Text
  expectUndelivered : Bool
  whereClause : Option Text
  forEachQuery : Option Text
  withSpec : List (Text × Text)

inductive DispatchSpec where
  | mk (commandName : Text) (withSpec : List (Text × Text)) (compensates : Option DispatchSpec)

structure ProcessManagerHandler where
  eventType : Text
  fromState : Text
  toState : Text
  dispatches : List DispatchSpec := []

structure ProcessManager where
  name : Text
  correlatesBy : Text := []
  startsOn : Option Text := none
  endsOn : Option Text := none
  endings : List Text := []
  states : List Text := []
  handlers : List ProcessManagerHandler := []

structure Provision where
  capability : Text
  key : Text
  verb : Text

structure Bluebook where
  name : Text
  version : Option Text := none
  vision : Option Text := none
  classification : Option Text := none
  «namespace» : Option Text := none
  aggregates : List Aggregate := []
  readModels : List ReadModel := []
  policies : List Policy := []
  processManagers : List ProcessManager := []
  attachesTo : List Text := []
  provides : List Provision := []

/-! ### Names -/

/-- Unicode's tables of cases, for one character and for a text. -/
structure Cases where
  upper : Char → Text
  lower : Char → Text
  isUpper : Char → Bool
  lowercase : Text → Text

/-- `split_whitespace` -/
def wordsOf (text : Text) : List Text :=
  (text.splitOnP isWhitespace).filter (!·.isEmpty)

variable (u : Cases)

/-- `published on` to `published_on` -/
def snake (words : Text) : Text := joinWith ['_'] ((wordsOf words).map u.lowercase)

/-- `page slug` to `PageSlug`; a word keeps the capitals it was written with after its first
letter. -/
def camel (words : Text) : Text :=
  ((wordsOf words).map fun word => match word with
    | [] => []
    | first :: others => u.upper first ++ others).flatten

/-- `PageSlug` to `page slug`, `published_on` to `published on`. -/
def spoken (name : Text) : Text :=
  name.foldl (fun out c =>
    if c = '_' then out ++ [' ']
    else if u.isUpper c then
      (if out.isEmpty || out.getLast? = some ' ' then out else out ++ [' ']) ++ u.lower c
    else out ++ [c]) []

end Hecks.Sentence
