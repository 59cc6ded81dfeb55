import Mathlib

/-! Canonical expressions: the paths a parsed rule reads, and what it evaluates to over a record's
state and a call's arguments. -/
namespace Hecks.Runtime

/-- A `{ |x| ... }` block: a block predicate of one of three modes, a find with the path walked
through what it finds, or a sum. -/
inductive BlockKind where
  | all
  | any
  | none
  | find (path : List String)
  | sum

/-- A parsed expression. `Lookup` and the blocks are the nodes that read names, every other node
is an operation over the nodes below it. -/
inductive Node (ω : Type) where
  | lookup (head : String) (rest : List String)
  | block (kind : BlockKind) (receiver : Node ω) (param : String) (predicate : Node ω)
  | apply (operation : ω) (children : List (Node ω))

/-- A dotted path, split at its first dot. -/
structure Path where
  head : String
  rest : List String
  deriving DecidableEq

/-- What the operations make of the values below them. -/
structure Operators (ω V : Type) where
  operate : ω → List (Except String V) → Except String V
  /-- The elements a block runs over; anything but a list is refused. -/
  elements : BlockKind → V → Except String (List V)
  gather : BlockKind → List (V × Except String V) → Except String V
  walkPath : V → List String → Except String V
  truthy : V → Bool

/-- `state` holds no entry for a name the record does not know, and a refusal for a known one it
cannot read. -/
structure Env (V : Type) where
  attrs : String → Option V
  state : String → Option (Except String V)

variable {ω V : Type}

def Env.fetch (env : Env V) (name : String) : Except String V :=
  match env.attrs name with
  | some value => .ok value
  | none =>
      match env.state name with
      | some read => read
      | none => .error s!"cannot resolve {name.quote} — no such attribute or argument"

/-- A block's parameter, bound for one element: it wins over a field of that name. -/
def Env.bind (env : Env V) (param : String) (element : V) : Env V :=
  { env with attrs := Function.update env.attrs param (some element) }

mutual

/-- `Evaluator.interpret` and `Resolver.interpret`. -/
def interpret (o : Operators ω V) (env : Env V) : Node ω → Except String V
  | .lookup head rest => (env.fetch head).bind fun value => o.walkPath value rest
  | .block kind receiver param predicate =>
      (interpret o env receiver).bind fun collection =>
        (o.elements kind collection).bind fun elements =>
          o.gather kind (elements.map fun element =>
            (element, interpret o (env.bind param element) predicate))
  | .apply operation children => o.operate operation (interpretAll o env children)

def interpretAll (o : Operators ω V) (env : Env V) : List (Node ω) → List (Except String V)
  | [] => []
  | node :: nodes => interpret o env node :: interpretAll o env nodes

end

/-- The names bound inside a block: only a block predicate binds its parameter here. -/
def BlockKind.bound (param : String) (names : List String) : BlockKind → List String
  | find _ => names
  | sum => names
  | _ => param :: names

mutual

/-- `ExpressionReads.collect`: the paths a node reads, but for names an enclosing block bound. -/
def collect (bound : List String) : Node ω → List Path
  | .lookup head rest => if bound.contains head then [] else [⟨head, rest⟩]
  | .block kind receiver param predicate =>
      collect bound receiver ++ collect (kind.bound param bound) predicate
  | .apply _ children => collectAll bound children

def collectAll (bound : List String) : List (Node ω) → List Path
  | [] => []
  | node :: nodes => collect bound node ++ collectAll bound nodes

end

/-- `ExpressionReads.paths` -/
def paths (node : Node ω) : List Path := collect [] node

section

variable {bound wider : List String} {path : Path}

theorem bound_subset (kind : BlockKind) (param : String) (bound : List String) :
    kind.bound param bound ⊆ param :: bound := by
  cases kind <;> simp [BlockKind.bound]

theorem bound_mono (kind : BlockKind) (param : String) (more : bound ⊆ wider) :
    kind.bound param bound ⊆ kind.bound param wider := by
  cases kind <;> simp only [BlockKind.bound] <;>
    first | exact more | exact List.cons_subset_cons param more

mutual

/-- The more names are bound, the fewer paths are read. -/
theorem collect_mono : ∀ (node : Node ω) {bound wider : List String}, bound ⊆ wider →
    path ∈ collect wider node → path ∈ collect bound node
  | .lookup head rest, bound, wider, more => by
      intro mem
      simp only [collect, List.contains_eq_mem, decide_eq_true_eq] at mem ⊢
      by_cases within : head ∈ wider
      · rw [if_pos within] at mem
        exact absurd mem List.not_mem_nil
      · rw [if_neg within] at mem
        rw [if_neg fun held => within (more held)]
        exact mem
  | .block kind receiver param predicate, bound, wider, more => by
      intro mem
      simp only [collect, List.mem_append] at mem ⊢
      apply mem.imp
      · exact collect_mono receiver more
      · exact collect_mono predicate (bound_mono kind param more)
  | .apply _ children, _, _, more => collectAll_mono children more

theorem collectAll_mono : ∀ (nodes : List (Node ω)) {bound wider : List String}, bound ⊆ wider →
    path ∈ collectAll wider nodes → path ∈ collectAll bound nodes
  | [], _, _, _ => id
  | node :: nodes, bound, wider, more => by
      intro mem
      simp only [collectAll, List.mem_append] at mem ⊢
      apply mem.imp
      · exact collect_mono node more
      · exact collectAll_mono nodes more

end

end

section

variable {o : Operators ω V} {bound : List String}

theorem fetch_bind_self (env : Env V) (param : String) (element : V) :
    (env.bind param element).fetch param = .ok element := by
  simp only [Env.fetch, Env.bind, Function.update_self]

theorem fetch_bind_other (env : Env V) {param name : String} (element : V) (h : name ≠ param) :
    (env.bind param element).fetch name = env.fetch name := by
  simp only [Env.fetch, Env.bind, Function.update_of_ne h]

/-- What a path comes to. -/
def Env.lookup (o : Operators ω V) (env : Env V) (path : Path) : Except String V :=
  (env.fetch path.head).bind fun value => o.walkPath value path.rest

theorem lookup_of_fetch {env env' : Env V} {path : Path}
    (same : env.fetch path.head = env'.fetch path.head) :
    env.lookup o path = env'.lookup o path := by
  rw [Env.lookup, same, Env.lookup]

theorem lookup_bind_other (env : Env V) {param : String} {path : Path} (element : V)
    (h : path.head ≠ param) : (env.bind param element).lookup o path = env.lookup o path :=
  lookup_of_fetch (fetch_bind_other env element h)

/-- The two agree on the names bound and on what a list of paths comes to. -/
structure Alike (o : Operators ω V) (env env' : Env V) (bound : List String)
    (read : List Path) : Prop where
  names : ∀ name ∈ bound, env.fetch name = env'.fetch name
  lookups : ∀ path ∈ read, env.lookup o path = env'.lookup o path

theorem Alike.left {env env' : Env V} {xs ys : List Path} (h : Alike o env env' bound (xs ++ ys)) :
    Alike o env env' bound xs :=
  ⟨h.names, fun path mem => h.lookups path (List.mem_append_left ys mem)⟩

theorem Alike.right {env env' : Env V} {xs ys : List Path}
    (h : Alike o env env' bound (xs ++ ys)) : Alike o env env' bound ys :=
  ⟨h.names, fun path mem => h.lookups path (List.mem_append_right xs mem)⟩

/-- Inside a block the two agree on its parameter too. -/
theorem Alike.bind {env env' : Env V} {predicate : Node ω} {kind : BlockKind} {param : String}
    (h : Alike o env env' bound (collect (kind.bound param bound) predicate)) (element : V) :
    Alike o (env.bind param element) (env'.bind param element) (param :: bound)
      (collect (param :: bound) predicate) := by
  constructor
  · intro name mem
    by_cases self : name = param
    · rw [self, fetch_bind_self, fetch_bind_self]
    · rw [fetch_bind_other _ _ self, fetch_bind_other _ _ self]
      exact h.names name (List.mem_of_ne_of_mem self mem)
  · intro path mem
    by_cases self : path.head = param
    · simp only [Env.lookup, self, fetch_bind_self]
    · rw [lookup_bind_other _ _ self, lookup_bind_other _ _ self]
      exact h.lookups path (collect_mono predicate (bound_subset kind param bound) mem)

mutual

/-- A value depends only on what the expression's paths come to. -/
theorem interpret_congr : ∀ (node : Node ω) (env env' : Env V) (bound : List String),
    Alike o env env' bound (collect bound node) → interpret o env node = interpret o env' node
  | .lookup head rest, env, env', bound, alike => by
      by_cases held : head ∈ bound
      · simp only [interpret, alike.names head held]
      · have read : (⟨head, rest⟩ : Path) ∈ collect bound (.lookup head rest : Node ω) := by
          simp [collect, held]
        exact alike.lookups ⟨head, rest⟩ read
  | .block kind receiver param predicate, env, env', bound, alike => by
      have outer := interpret_congr receiver env env' bound alike.left
      have inner : ∀ element, interpret o (env.bind param element) predicate =
          interpret o (env'.bind param element) predicate := fun element =>
        interpret_congr predicate _ _ (param :: bound) (alike.right.bind element)
      simp only [interpret, outer, inner]
  | .apply operation children, env, env', bound, alike => by
      simp only [interpret, interpretAll_congr children env env' bound alike]

theorem interpretAll_congr : ∀ (nodes : List (Node ω)) (env env' : Env V) (bound : List String),
    Alike o env env' bound (collectAll bound nodes) →
      interpretAll o env nodes = interpretAll o env' nodes
  | [], _, _, _, _ => rfl
  | node :: nodes, env, env', bound, alike => by
      simp only [interpretAll, interpret_congr node env env' bound alike.left,
        interpretAll_congr nodes env env' bound alike.right]

end

theorem interpret_of_lookups {node : Node ω} {env env' : Env V}
    (same : ∀ path ∈ paths node, env.lookup o path = env'.lookup o path) :
    interpret o env node = interpret o env' node :=
  interpret_congr node env env' [] ⟨fun _ mem => absurd mem List.not_mem_nil, same⟩

theorem interpret_of_paths {node : Node ω} {env env' : Env V}
    (agree : ∀ path ∈ paths node, env.fetch path.head = env'.fetch path.head) :
    interpret o env node = interpret o env' node :=
  interpret_of_lookups fun path mem => lookup_of_fetch (agree path mem)

end

end Hecks.Runtime
