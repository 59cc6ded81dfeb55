import Hecks.Runtime.Hydration
import Hecks.Runtime.Planning

/-! The mutex a dispatch holds from hydration to save, and the record it goes on to work on. The
mutex is picked by what the arguments name as they came, the record by what they name once they
are filled in and coerced. -/
namespace Hecks.Runtime.Identity

/-! ### The registry of mutexes -/

namespace AggregateLock

/-- `@locks`, by key in the order the mutexes were made: a mutex is its place in that order. -/
abbrev Locks := List (List String)

def key (domain aggregate : String) (id : Option String) : List String :=
  match id with
  | none => [domain, aggregate]
  | some id => [domain, aggregate, id]

/-- `AggregateLock.for`, under the registry's own lock. -/
def mutexFor (locks : Locks) (key : List String) : Nat × Locks :=
  if key ∈ locks then (locks.idxOf key, locks) else (locks.length, locks ++ [key])

/-- The mutexes handed out for these keys one after the other. -/
def mutexes (locks : Locks) : List (List String) → List Nat
  | [] => []
  | key :: keys => (mutexFor locks key).1 :: mutexes (mutexFor locks key).2 keys

/-- Keys are only ever added behind the others, so each keeps its mutex. -/
theorem mutexes_eq (locks : Locks) (keys : List (List String)) :
    ∃ later, (∀ key ∈ keys, key ∈ locks ++ later) ∧
      mutexes locks keys = keys.map (locks ++ later).idxOf := by
  induction keys generalizing locks with
  | nil => exact ⟨[], fun key mem => absurd mem List.not_mem_nil, rfl⟩
  | cons key keys ih =>
    unfold mutexes mutexFor
    by_cases held : key ∈ locks
    · rw [if_pos held]
      obtain ⟨later, mem, same⟩ := ih locks
      refine ⟨later, ?_, ?_⟩
      · exact List.forall_mem_cons.mpr ⟨List.mem_append_left _ held, mem⟩
      · rw [List.map_cons, same, List.idxOf_append_of_mem held]
    · rw [if_neg held]
      obtain ⟨later, mem, same⟩ := ih (locks ++ [key])
      rw [List.append_assoc] at mem same
      refine ⟨[key] ++ later, ?_, ?_⟩
      · exact List.forall_mem_cons.mpr ⟨by simp, mem⟩
      · rw [List.map_cons, same, List.idxOf_append_of_notMem held, List.singleton_append,
          List.idxOf_cons_self, Nat.add_zero]

/-- Two picks are of one mutex exactly when they are for one key. -/
theorem mutexes_eq_iff {keys : List (List String)} {i j : Nat} {key key' : List String}
    (first : keys[i]? = some key) (second : keys[j]? = some key') :
    (mutexes [] keys)[i]? = (mutexes [] keys)[j]? ↔ key = key' := by
  obtain ⟨later, mem, same⟩ := mutexes_eq [] keys
  rw [same, List.getElem?_map, List.getElem?_map, first, second, Option.map_some, Option.map_some,
    Option.some.injEq]
  have held := mem key (List.mem_of_getElem? first)
  exact List.idxOf_inj held

theorem key_inj {domain aggregate : String} {id id' : Option String}
    (same : key domain aggregate id = key domain aggregate id') : id = id' := by
  cases id <;> cases id' <;> simp_all [key]

end AggregateLock

/-! ### From the arguments as they came to the record -/

/-- A dispatch on the records of an aggregate: the call as it came, and what its command declares.
`answer` gives an outside fact, `coerce` the value of a declared attribute. -/
structure Dispatch (ε : Type) where
  call : Invocation
  needs : List String
  answer : String → Except ε Held
  attributes : List (String × Option Held)
  coerce : String → Held → Except ε Held

/-- Under either spelling of the name. -/
def passed (args : Args) (name : String) : Bool :=
  (args (.symbol name)).isSome || (args (.text name)).isSome

def merge (args : Args) (facts : List (String × Held)) : Args
  | .symbol name => (facts.lookup name).or (args (.symbol name))
  | key => args key

namespace Dispatch

variable {ε : Type} (d : Dispatch ε)

def fillNeeds (args : Args) : Except ε Args := do
  let facts ← (d.needs.filter fun fact => !passed args fact).mapM fun fact => do
    pure (fact, ← d.answer fact)
  pure (merge args facts)

def fillDefaults (args : Args) : Args :=
  merge args (d.attributes.filterMap fun (name, default) =>
    if passed args name then none else default.map (name, ·))

def coerceDeclaredArguments (args : Args) : Except ε Args :=
  d.attributes.foldlM (fun normalized (name, _) =>
    match normalized (.symbol name) with
    | none => pure normalized
    | some value => do
        let coerced ← d.coerce name value
        pure (Function.update normalized (.symbol name) (some coerced))) args

/-- The arguments as the record is looked up by them. -/
def settled : Except ε Args := do
  d.coerceDeclaredArguments (d.fillDefaults (← d.fillNeeds d.call.args))

/-- The reference key an interpreter passes on: an entity's passes none. -/
def hint : Option Path := if d.call.command.entity then none else d.call.command.referenceKey

end Dispatch

inductive Isolation where
  | optimistic
  | writeLock
  | mutex (key : List String)

namespace Construct

variable {ε : Type} (c : Construct ε)

/-- The identity a lock is held under, where one was found. -/
def lockId (held : Held) : Option String :=
  match held with
  | .nil => none
  | held => some (held.toS c.inspect)

/-- `run_dispatch_order_with_isolation`: what a dispatch holds while it runs. -/
def isolation (capabilities : List Capability) (domain aggregate : String) (d : Dispatch ε) :
    Isolation :=
  if .optimisticConcurrency ∈ capabilities then .optimistic
  else if .crossProcessLock ∈ capabilities then .writeLock
  else .mutex (AggregateLock.key domain aggregate
    (c.lockId (c.bestEffort d.call.args d.call.route d.hint)))

/-- The dispatch hydrates, creates or saves the record of this identity. -/
def GoesOn (d : Dispatch ε) (id : String) : Prop :=
  ∃ args creates, d.settled = .ok args ∧
    c.recordIdentity { d.call with args := args } = .ok (id, creates)

/-- What the arguments name, by the identity their facts make up, an `id` or the reference. -/
def named (args : Args) (referenceKey : Option Path) : Option String :=
  c.lockId ((c.namedBy args referenceKey).toOption.getD .nil)

/-- The dispatch is routed, or filling in and coercing its arguments leaves what they name. -/
def Foretold (d : Dispatch ε) : Prop :=
  d.call.route.isSome ∨
    ∀ args, d.settled = .ok args → c.named d.call.args d.hint = c.named args d.hint

variable {c}

theorem named_of_acting {args : Args} {key : Option Path} {id : String}
    (acting : c.actingIdentity args key = .ok id) : c.named args key = some id := by
  unfold actingIdentity at acting
  unfold named
  cases names : c.namedBy args key with
  | error e =>
    rw [names] at acting
    cases acting
  | ok held =>
    rw [names] at acting
    by_cases there : held.truthy = true
    · simp only [Except.mapError, bind, Except.bind, there, if_true, pure, Except.pure,
        Except.ok.injEq] at acting
      subst acting
      cases held <;> first | rfl | cases there
    · simp only [Except.mapError, bind, Except.bind, there] at acting
      cases acting

theorem named_of_derived {args : Args} {id : String} (made : c.identityOf args = .ok (some id))
    (key : Option Path) : c.named args key = some id :=
  named_of_acting (actingIdentity_of_derived made key)

/-- Once they are settled, the arguments of a call without a route name the record it goes on
with. -/
theorem named_settled {call : Invocation} {id : String} {creates : Bool} (flat : call.route = none)
    (goes : c.recordIdentity call = .ok (id, creates)) :
    c.named call.args (if call.command.entity then none else call.command.referenceKey) =
      some id := by
  cases creates with
  | true => exact named_of_derived (derived_of_creates flat goes) _
  | false =>
    obtain ⟨⟨hydrates, entity, key⟩, route, args⟩ := call
    obtain rfl : route = none := flat
    have acts : ∀ key, (c.actingIdentity args key).map (·, false) = .ok (id, false) →
        c.named args key = some id := by
      intro key acted
      cases acting : c.actingIdentity args key with
      | error e =>
        rw [acting] at acted
        cases acted
      | ok id' =>
        rw [acting] at acted
        cases acted
        exact named_of_acting acting
    cases entity with
    | true => exact acts _ goes
    | false =>
      cases hydrates with
      | acting => exact acts _ goes
      | complete | implicit =>
        cases made : c.derived args with
        | error e =>
          simp only [recordIdentity, creationIdentity, made] at goes
          cases goes
        | ok id' =>
          simp only [recordIdentity, creationIdentity, made] at goes
          cases id' <;> cases goes

/-- A routed call goes on with the record it is routed to. -/
theorem recordIdentity_of_route {call : Invocation} {id route : String} {creates : Bool}
    (routed : call.route = some route) (goes : c.recordIdentity call = .ok (id, creates)) :
    id = route := by
  obtain ⟨⟨hydrates, entity, key⟩, route', args⟩ := call
  obtain rfl : route' = some route := routed
  cases entity with
  | true =>
    cases goes
    rfl
  | false =>
    cases hydrates with
    | acting | implicit =>
      cases goes
      rfl
    | complete =>
      cases made : c.derived args with
      | error e =>
        simp only [recordIdentity, creationIdentity, made] at goes
        cases goes
      | ok derived =>
        cases derived with
        | none =>
          simp only [recordIdentity, creationIdentity, made] at goes
          cases goes
          rfl
        | some derived =>
          by_cases same : route = derived
          · subst same
            simp only [recordIdentity, creationIdentity, made, bind, Except.bind, if_true] at goes
            cases goes
            rfl
          · simp only [recordIdentity, creationIdentity, made, bind, Except.bind, same] at goes
            cases goes

/-- The identity the lock is held under is the record's exactly for a dispatch that foretells
it. -/
theorem lockId_eq_iff {d : Dispatch ε} {id : String} (goes : c.GoesOn d id) :
    c.lockId (c.bestEffort d.call.args d.call.route d.hint) = some id ↔ c.Foretold d := by
  obtain ⟨args, creates, settled, goes⟩ := goes
  cases routed : d.call.route with
  | some route =>
    have same := @recordIdentity_of_route _ c { d.call with args := args } _ _ _ routed goes
    subst same
    exact iff_of_true rfl (.inl (by rw [routed]; rfl))
  | none =>
    have later : c.named args d.hint = some id :=
      @named_settled _ c { d.call with args := args } _ _ routed goes
    change c.named d.call.args d.hint = some id ↔ _
    rw [← later]
    constructor
    · intro same
      refine .inr fun args' settled' => ?_
      obtain rfl : args = args' := Except.ok.inj (settled.symm.trans settled')
      exact same
    · rintro (there | same)
      · rw [routed] at there
        cases there
      · exact same args settled

/-- A dispatch that does not foretell its record has no route. -/
theorem lockId_of_not_foretold {d : Dispatch ε} (blind : ¬ c.Foretold d) :
    c.lockId (c.bestEffort d.call.args d.call.route d.hint) = c.named d.call.args d.hint := by
  cases routed : d.call.route with
  | some route => exact absurd (.inl (by rw [routed]; rfl)) blind
  | none => rfl

variable (c)

/-- Two dispatches that go on with one record hold one mutex exactly when both foretell it, or
neither does and their arguments name the same as they came. -/
theorem one_mutex_iff (capabilities : List Capability)
    (lacks : .optimisticConcurrency ∉ capabilities) (lacks' : .crossProcessLock ∉ capabilities)
    (domain aggregate : String) (d d' : Dispatch ε) (id : String) (goes : c.GoesOn d id)
    (goes' : c.GoesOn d' id) :
    ∃ key key', c.isolation capabilities domain aggregate d = .mutex key ∧
      c.isolation capabilities domain aggregate d' = .mutex key' ∧
      ∀ (picks : List (List String)) (i j : Nat), picks[i]? = some key → picks[j]? = some key' →
        ((AggregateLock.mutexes [] picks)[i]? = (AggregateLock.mutexes [] picks)[j]? ↔
          (c.Foretold d ∧ c.Foretold d') ∨
          (¬ c.Foretold d ∧ ¬ c.Foretold d' ∧
            c.named d.call.args d.hint = c.named d'.call.args d'.hint)) := by
  refine ⟨_, _, by rw [isolation, if_neg lacks, if_neg lacks'],
    by rw [isolation, if_neg lacks, if_neg lacks'], ?_⟩
  intro picks i j first second
  rw [AggregateLock.mutexes_eq_iff first second]
  have keys : ∀ x y : Option String, AggregateLock.key domain aggregate x =
      AggregateLock.key domain aggregate y ↔ x = y :=
    fun x y => ⟨AggregateLock.key_inj, fun same => by rw [same]⟩
  rw [keys]
  by_cases told : c.Foretold d
  · rw [(lockId_eq_iff goes).mpr told, eq_comm, lockId_eq_iff goes']
    simp [told]
  · by_cases told' : c.Foretold d'
    · have differ := mt (lockId_eq_iff goes).mp told
      rw [(lockId_eq_iff goes').mpr told']
      simp [told, told', differ]
    · rw [lockId_of_not_foretold told, lockId_of_not_foretold told']
      simp [told, told']

end Construct

/-- A cash book, kept by day. -/
def cashBook : Construct Unit where
  identityPaths := [⟨"day", ["value"]⟩]
  attributes := ["day"]
  unwrapped _ held := .ok held
  inspect _ := ""
  notAHash := ()

/-- The command that closes a day, by default the first of May. -/
def close (route day : Option String) : Dispatch Unit where
  call := ⟨⟨.acting, false, none⟩, route,
    fun key => if key = .symbol "day" then day.map .text else none⟩
  needs := []
  answer _ := .error ()
  attributes := [("day", some (.text "2024-05-01"))]
  coerce _ held := .ok held

theorem close_goesOn_given : cashBook.GoesOn (close none (some "2024-05-01")) "2024-05-01" :=
  ⟨_, _, rfl, rfl⟩

theorem close_goesOn_routed : cashBook.GoesOn (close (some "2024-05-01") none) "2024-05-01" :=
  ⟨_, _, rfl, rfl⟩

theorem routed_with_given :
    ∃ key key',
      cashBook.isolation [.atomicPut] "Shop" "CashBook" (close (some "2024-05-01") none) =
        .mutex key ∧
      cashBook.isolation [.atomicPut] "Shop" "CashBook" (close none (some "2024-05-01")) =
        .mutex key' ∧
      ∀ (picks : List (List String)) (i j : Nat), picks[i]? = some key → picks[j]? = some key' →
        ((AggregateLock.mutexes [] picks)[i]? = (AggregateLock.mutexes [] picks)[j]? ↔
          (cashBook.Foretold (close (some "2024-05-01") none) ∧
            cashBook.Foretold (close none (some "2024-05-01"))) ∨
          (¬ cashBook.Foretold (close (some "2024-05-01") none) ∧
            ¬ cashBook.Foretold (close none (some "2024-05-01")) ∧
            cashBook.named (close (some "2024-05-01") none).call.args none =
              cashBook.named (close none (some "2024-05-01")).call.args none)) :=
  cashBook.one_mutex_iff [.atomicPut] (by decide) (by decide) "Shop" "CashBook" _ _ "2024-05-01"
    close_goesOn_routed close_goesOn_given

/-- Closing the first of May by default and by its date: one record, two mutexes. -/
theorem defaulted_beside_given :
    cashBook.GoesOn (close none none) "2024-05-01" ∧
      cashBook.GoesOn (close none (some "2024-05-01")) "2024-05-01" ∧
      ∃ key key', cashBook.isolation [.atomicPut] "Shop" "CashBook" (close none none) = .mutex key ∧
        cashBook.isolation [.atomicPut] "Shop" "CashBook" (close none (some "2024-05-01")) =
          .mutex key' ∧
        AggregateLock.mutexes [] [key, key'] = [0, 1] :=
  ⟨⟨_, _, rfl, rfl⟩, ⟨_, _, rfl, rfl⟩, _, _, rfl, rfl, by decide⟩

end Hecks.Runtime.Identity
