import Hecks.Lib.Reading
import Hecks.ModelCheck.Reactions

/-! The checks over reaction chains: a warning for each verb that starts a chain longer than the
limit, for each search that gave up and for each loop of policies. -/
namespace Hecks.ModelCheck

/-- The first of the longest. -/
def maxBySize {α : Type} (chains : List (List α)) : List α :=
  chains.foldl (fun best chain => if best.length < chain.length then chain else best) []

section

variable (snake : String → String) (b : Bluebook)

/-- A policy and the verb it dispatches. -/
abbrev Step := Node b × Option Verb

def reactionStep (p : Node b) : Step b := (p, dispatch snake b p)

/-! ### The walk to the longest chain -/

/-- `settled`: what a policy that reaches no loop starts. No answer when the walk is deeper than
the fuel, as for the two that follow. -/
def settled : Nat → Node b → Option (List (Step b))
  | 0, _ => none
  | fuel + 1, p => do
      let chains ← (successors snake b p).mapM (settled fuel)
      return reactionStep snake b p :: maxBySize chains

def reachesLoop (looping : List (Node b)) : Nat → Node b → Option Bool
  | 0, _ => none
  | fuel + 1, p =>
      if looping.contains p then some true
      else (successors snake b p).anyM (reachesLoop looping fuel)

def workLimit : Nat := 10000

/-- How much one search has done, and whether it gave up. -/
structure Work where
  done : Nat
  capped : Bool

/-- The chains these policies start, one search after the other. -/
def searchAll (search : Node b → Work → Option (List (Step b) × Work)) :
    List (Node b) → Work → Option (List (List (Step b)) × Work)
  | [], work => some ([], work)
  | p :: ps, work => do
      let (chain, work) ← search p work
      let (chains, work) ← searchAll search ps work
      return (chain :: chains, work)

def search (looping : List (Node b)) (deep : Nat) :
    Nat → List (Node b) → Node b → Work → Option (List (Step b) × Work)
  | 0, _, _, _ => none
  | fuel + 1, path, p, work => do
      if !(← reachesLoop snake b looping deep p) then
        return (← settled snake b deep p, work)
      if workLimit < work.done + 1 then return ([], ⟨work.done + 1, true⟩)
      let next := (successors snake b p).filter fun q => !path.contains q && q != p
      let (chains, work) ← searchAll b (search looping deep fuel (path ++ [p])) next
        { work with done := work.done + 1 }
      return (reactionStep snake b p :: maxBySize chains, work)

/-- The longest chain the verb's events start, and whether the search for it gave up. -/
def longestFrom (looping : List (Node b)) (fuel : Nat) (verb : Option Verb) :
    Option (List (Step b) × Bool) := do
  let (chains, work) ← searchAll b (search snake b looping fuel fuel []) (reactingTo b verb)
    ⟨0, false⟩
  return (maxBySize chains, work.capped)

/-! ### The findings -/

inductive Kind where
  | deepReactionChain
  | reactionChainSearchCapped
  | unboundedReactionLoop
  deriving DecidableEq

/-- Each is a warning. -/
structure Finding where
  kind : Kind
  subject : String
  message : String
  deriving DecidableEq

def verbText : Option Verb → String
  | none => ""
  | some (domain, aggregate, command) => s!"{domain}::{aggregate}.{command}"

def Policy.at (p : Node b) : Policy := (reacting b).get p

def deepChainFinding (verb : Option Verb) (chain : List (Step b)) (limit : Nat) : Finding where
  kind := .deepReactionChain
  subject := verbText verb
  message :=
    let path := " -> ".intercalate
      (chain.map fun s => s!"{(Policy.at b s.1).name} -> {verbText s.2}")
    s!"starts a chain of {chain.length} reactions, past the reaction depth limit of {limit}: " ++
      s!"the {limit + 1}th and any after it are refused: {verbText verb} -> {path}"

def cappedSearchFinding (verb : Option Verb) (chain : List (Step b)) : Finding where
  kind := .reactionChainSearchCapped
  subject := verbText verb
  message := s!"the search for the longest chain stopped after {workLimit} steps; " ++
    s!"the chain of {chain.length} reactions is a lower bound"

def loopFinding (policies : List (Node b)) (limit : Nat) : Finding :=
  let names := ", ".intercalate (policies.map fun p => (Policy.at b p).name)
  { kind := .unboundedReactionLoop
    subject := names
    message := s!"policies {names} reach one another, so a command that starts them reacts " ++
      s!"until the reaction depth limit of {limit}, and the {limit + 1}th reaction is refused " ++
      "without anyone being told" }

def chainFindings (looping : List (Node b)) (fuel limit : Nat) (verb : Option Verb) :
    Option (List Finding) := do
  let (chain, capped) ← longestFrom snake b looping fuel verb
  return (if limit < chain.length then [deepChainFinding b verb chain limit] else []) ++
    if capped then [cappedSearchFinding b verb chain] else []

def cycles (fuel : Nat) : Option (List (List (Node b))) :=
  Components.groups (successors snake b) fuel (List.finRange _)

def reactionDepthFindings (fuel limit : Nat) : Option (List Finding) := do
  let loops ← cycles snake b fuel
  let chains ← (entryVerbs snake b).mapM (chainFindings snake b loops.flatten fuel limit)
  return chains.flatten ++ loops.map fun policies => loopFinding b policies limit

end

/-! ### Chains -/

section

variable (snake : String → String) (b : Bluebook)

/-- Policies of which each hears what the one before it dispatches. -/
def Reacts (chain : List (Node b)) : Prop :=
  chain.IsChain fun p q => q ∈ successors snake b p

/-- A chain that starts at a policy the verb reaches. -/
def Starts (verb : Option Verb) (chain : List (Node b)) : Prop :=
  Reacts snake b chain ∧ ∀ p ∈ chain.head?, p ∈ reactingTo b verb

/-- Policies reach one another, or a verb no policy dispatches starts a chain past the limit. -/
def InSight (limit : Nat) : Prop :=
  (∃ p, Relation.TransGen (fun p q => q ∈ successors snake b p) p p) ∨
    ∃ verb ∈ entryVerbs snake b, ∃ chain, Starts snake b verb chain ∧ limit < chain.length

end

section

variable {α β : Type}

theorem maxBySize_spec (chains : List (List α)) :
    (∀ c ∈ chains, c.length ≤ (maxBySize chains).length) ∧
      (maxBySize chains = [] ∨ maxBySize chains ∈ chains) := by
  have run : ∀ (chains : List (List α)) (best : List α),
      let top := chains.foldl
        (fun best chain => if best.length < chain.length then chain else best) best
      best.length ≤ top.length ∧ (∀ c ∈ chains, c.length ≤ top.length) ∧
        (top = best ∨ top ∈ chains) := by
    intro chains
    induction chains with
    | nil =>
      intro best
      exact ⟨le_rfl, fun c mem => absurd mem List.not_mem_nil, Or.inl rfl⟩
    | cons c chains ih =>
      intro best
      obtain ⟨above, each, one⟩ := ih (if best.length < c.length then c else best)
      by_cases longer : best.length < c.length
      · rw [if_pos longer] at above each one
        simp only [List.foldl_cons, if_pos longer]
        refine ⟨longer.le.trans above, ?_, ?_⟩
        · intro d mem
          rcases List.mem_cons.mp mem with rfl | mem
          · exact above
          · exact each d mem
        · right
          rcases one with same | mem
          · rw [same]
            exact List.mem_cons_self
          · exact List.mem_cons_of_mem c mem
      · rw [if_neg longer] at above each one
        simp only [List.foldl_cons, if_neg longer]
        refine ⟨above, ?_, one.imp_right (List.mem_cons_of_mem c)⟩
        intro d mem
        rcases List.mem_cons.mp mem with rfl | mem
        · exact (not_lt.mp longer).trans above
        · exact each d mem
  obtain ⟨-, each, one⟩ := run chains []
  exact ⟨each, one⟩

end

section

variable {snake : String → String} {b : Bluebook} {looping : List (Node b)} {fuel deep : Nat}

/-- What is settled for a policy is as long as the longest chain from it. -/
theorem settled_longest {p : Node b} {steps : List (Step b)}
    (h : settled snake b fuel p = some steps) :
    (∃ c, Reacts snake b (p :: c) ∧ (p :: c).length = steps.length) ∧
      ∀ c, Reacts snake b (p :: c) → (p :: c).length ≤ steps.length := by
  induction fuel generalizing p steps with
  | zero => cases h
  | succ fuel ih =>
    obtain ⟨chains, tails, same⟩ := Option.bind_eq_some_iff.mp h
    cases same
    obtain ⟨there, back⟩ := Reading.mapM_some tails
    obtain ⟨each, one⟩ := maxBySize_spec chains
    constructor
    · rcases one with none | mem
      · exact ⟨[], List.isChain_singleton p, by rw [none]; rfl⟩
      · obtain ⟨q, next, settledQ⟩ := back _ mem
        obtain ⟨⟨c, reacts, size⟩, -⟩ := ih settledQ
        refine ⟨q :: c, List.isChain_cons_cons.mpr ⟨next, reacts⟩, ?_⟩
        rw [List.length_cons, size, List.length_cons]
    · intro c reacts
      cases c with
      | nil => exact Nat.succ_le_succ (Nat.zero_le _)
      | cons q c =>
        obtain ⟨next, rest⟩ := List.isChain_cons_cons.mp reacts
        obtain ⟨chain, mem, settledQ⟩ := there q next
        have bound := (ih settledQ).2 c rest
        rw [List.length_cons, List.length_cons]
        exact Nat.succ_le_succ (bound.trans (each chain mem))

theorem anyM_true {f : Node b → Option Bool} {ps : List (Node b)}
    (h : ps.anyM f = some true) : ∃ p ∈ ps, f p = some true := by
  induction ps with
  | nil => cases h
  | cons p ps ih =>
    obtain ⟨r, first, rest⟩ := Option.bind_eq_some_iff.mp h
    cases r with
    | true => exact ⟨p, List.mem_cons_self, first⟩
    | false =>
      obtain ⟨q, mem, found⟩ := ih rest
      exact ⟨q, List.mem_cons_of_mem p mem, found⟩

theorem anyM_total {f : Node b → Option Bool} {ps : List (Node b)}
    (each : ∀ p ∈ ps, f p = some false) : ps.anyM f = some false := by
  induction ps with
  | nil => rfl
  | cons p ps ih =>
    have rest := ih fun q mem => each q (List.mem_cons_of_mem p mem)
    rw [List.anyM, each p List.mem_cons_self]
    exact rest

/-- Without loops no policy reaches one. -/
theorem reachesLoop_nil {p : Node b} {r : Bool}
    (h : reachesLoop snake b [] fuel p = some r) : r = false := by
  induction fuel generalizing p r with
  | zero => cases h
  | succ fuel ih =>
    have onward : (successors snake b p).anyM (reachesLoop snake b [] fuel) = some r := h
    cases r with
    | false => rfl
    | true =>
      obtain ⟨q, -, found⟩ := anyM_true onward
      exact ih found

/-- Without loops every search settles. -/
theorem searchAll_nil {ps : List (Node b)} {path : List (Node b)} {work after : Work}
    {chains : List (List (Step b))}
    (h : searchAll b (search snake b [] deep fuel path) ps work = some (chains, after)) :
    ps.mapM (settled snake b deep) = some chains ∧ after = work := by
  induction ps generalizing work after chains with
  | nil =>
    cases h
    exact ⟨rfl, rfl⟩
  | cons p ps ih =>
    obtain ⟨⟨chain, between⟩, first, rest⟩ := Option.bind_eq_some_iff.mp h
    obtain ⟨⟨others, last⟩, found, same⟩ := Option.bind_eq_some_iff.mp rest
    cases same
    have one : settled snake b deep p = some chain ∧ between = work := by
      cases fuel with
      | zero => cases first
      | succ fuel =>
        obtain ⟨r, reaches, settles⟩ := Option.bind_eq_some_iff.mp first
        cases reachesLoop_nil reaches
        obtain ⟨steps, settled, same⟩ := Option.bind_eq_some_iff.mp settles
        cases same
        exact ⟨settled, rfl⟩
    obtain ⟨settledP, rfl⟩ := one
    obtain ⟨settledPs, rfl⟩ := ih found
    refine ⟨?_, rfl⟩
    rw [List.mapM_cons, settledP, settledPs]
    rfl

/-- Without loops the chain from a verb is as long as the longest it starts, and the search for it
does not give up. -/
theorem longestFrom_nil {verb : Option Verb} {steps : List (Step b)} {capped : Bool}
    (h : longestFrom snake b [] fuel verb = some (steps, capped)) :
    capped = false ∧ (∃ c, Starts snake b verb c ∧ c.length = steps.length) ∧
      ∀ c, Starts snake b verb c → c.length ≤ steps.length := by
  obtain ⟨⟨chains, work⟩, searched, same⟩ := Option.bind_eq_some_iff.mp h
  cases same
  obtain ⟨settles, rfl⟩ := searchAll_nil searched
  obtain ⟨there, back⟩ := Reading.mapM_some settles
  obtain ⟨each, one⟩ := maxBySize_spec chains
  refine ⟨rfl, ?_, ?_⟩
  · rcases one with none | mem
    · refine ⟨[], ⟨List.isChain_nil, ?_⟩, by rw [none]; rfl⟩
      intro p mem
      cases mem
    · obtain ⟨p, reacting, settledP⟩ := back _ mem
      obtain ⟨⟨c, reacts, size⟩, -⟩ := settled_longest settledP
      refine ⟨p :: c, ⟨reacts, ?_⟩, size⟩
      intro q head
      cases head
      exact reacting
  · intro c starts
    cases c with
    | nil => exact Nat.zero_le _
    | cons p c =>
      obtain ⟨chain, mem, settledP⟩ := there p (starts.2 p rfl)
      exact ((settled_longest settledP).2 c starts.1).trans (each chain mem)

/-! ### The walk ends where there is no loop -/

section

variable {rank : Node b → Nat} (falls : ∀ p, ∀ q ∈ successors snake b p, rank q < rank p)

include falls

theorem settled_total {p : Node b} (low : rank p < fuel) :
    ∃ steps, settled snake b fuel p = some steps := by
  induction fuel generalizing p with
  | zero => omega
  | succ fuel ih =>
    have next : ∀ q ∈ successors snake b p, ∃ steps, settled snake b fuel q = some steps := by
      intro q next
      have lower := falls p q next
      exact ih (by omega)
    obtain ⟨chains, tails⟩ := Reading.mapM_total next
    exact ⟨reactionStep snake b p :: maxBySize chains, by rw [settled, tails]; rfl⟩

theorem reachesLoop_total {p : Node b} (low : rank p < fuel) :
    reachesLoop snake b [] fuel p = some false := by
  induction fuel generalizing p with
  | zero => omega
  | succ fuel ih =>
    apply anyM_total
    intro q next
    have lower := falls p q next
    exact ih (by omega)

theorem searchAll_total (low : ∀ p, rank p < deep) (fuel : Nat) (ps : List (Node b))
    (work : Work) : ∃ chains, searchAll b (search snake b [] deep (fuel + 1) []) ps work =
      some (chains, work) := by
  induction ps with
  | nil => exact ⟨[], rfl⟩
  | cons p ps ih =>
    obtain ⟨chains, rest⟩ := ih
    obtain ⟨steps, settles⟩ := settled_total falls (low p)
    have one : search snake b [] deep (fuel + 1) [] p work = some (steps, work) := by
      rw [search, reachesLoop_total falls (low p), settles]
      rfl
    exact ⟨steps :: chains, by rw [searchAll, one]; simp [rest]⟩

end

/-- The check is silent exactly where no policies loop and no verb that policies leave alone
starts a chain past the limit. -/
theorem findings_eq_nil_iff {limit : Nat} :
    (∃ fuel, reactionDepthFindings snake b fuel limit = some []) ↔ ¬InSight snake b limit := by
  constructor
  · rintro ⟨fuel, silent⟩
    obtain ⟨loops, cycled, rest⟩ := Option.bind_eq_some_iff.mp silent
    obtain ⟨chains, found, same⟩ := Option.bind_eq_some_iff.mp rest
    obtain ⟨quiet, noLoop⟩ := List.append_eq_nil_iff.mp (Option.some.inj same)
    cases List.map_eq_nil_iff.mp noLoop
    obtain ⟨rank, falls⟩ := Components.rank_of_groups_eq_nil (List.mem_finRange) cycled
    rintro (⟨p, cycle⟩ | ⟨verb, entry, chain, starts, long⟩)
    · exact Components.acyclic_of_rank falls p cycle
    · obtain ⟨there, -⟩ := Reading.mapM_some found
      obtain ⟨reported, mem, searched⟩ := there verb entry
      obtain ⟨⟨steps, capped⟩, longest, same⟩ := Option.bind_eq_some_iff.mp searched
      have none : reported = [] := List.flatten_eq_nil_iff.mp quiet reported mem
      have short := (longestFrom_nil longest).2.2 chain starts
      cases same
      rw [if_pos (show limit < steps.length by omega)] at none
      cases none
  · intro unseen
    have acyclic : ∀ p, ¬Relation.TransGen (fun p q => q ∈ successors snake b p) p p := by
      intro p cycle
      exact unseen (Or.inl ⟨p, cycle⟩)
    obtain ⟨rank, falls, bound⟩ := Components.rank_of_acyclic acyclic
    obtain ⟨fuel, low⟩ : ∃ fuel, ∀ p, rank p < fuel + 1 :=
      ⟨_, fun p => Nat.lt_succ_of_le (bound p)⟩
    have cycled : cycles snake b (fuel + 1) = some [] :=
      Components.groups_eq_nil_of_rank falls low _
    have quiet : ∀ verb ∈ entryVerbs snake b,
        chainFindings snake b [] (fuel + 1) limit verb = some [] := by
      intro verb entry
      obtain ⟨chains, searched⟩ := searchAll_total falls low fuel (reactingTo b verb) ⟨0, false⟩
      have longest : longestFrom snake b [] (fuel + 1) verb = some (maxBySize chains, false) := by
        rw [longestFrom, searched]
        rfl
      obtain ⟨-, ⟨chain, starts, size⟩, -⟩ := longestFrom_nil longest
      have short : ¬limit < (maxBySize chains).length := by
        intro long
        exact unseen (Or.inr ⟨verb, entry, chain, starts, by omega⟩)
      rw [chainFindings, longest]
      show some ((if limit < (maxBySize chains).length then _ else []) ++ []) = some []
      rw [if_neg short]
      rfl
    refine ⟨fuel + 1, ?_⟩
    have all : ∃ found, (entryVerbs snake b).mapM
        (chainFindings snake b [] (fuel + 1) limit) = some found :=
      Reading.mapM_total fun verb entry => ⟨[], quiet verb entry⟩
    obtain ⟨found, ran⟩ := all
    have empty : found.flatten = [] := by
      apply List.flatten_eq_nil_iff.mpr
      intro findings mem
      obtain ⟨verb, entry, reported⟩ := (Reading.mapM_some ran).2 findings mem
      exact (Option.some.inj ((quiet verb entry).symm.trans reported)).symm
    rw [reactionDepthFindings, cycled]
    show ((entryVerbs snake b).mapM (chainFindings snake b [] (fuel + 1) limit)).bind _ = _
    rw [ran]
    show some (found.flatten ++ []) = some []
    rw [empty]
    rfl

end

/-! ### What a bluebook can announce -/

mutual

/-- The verbs of an entity's commands and of those nested in it, at any depth. -/
def entityRows (place : String) : Entity → List (String × List String)
  | .declare name commands entities =>
      commands.map (fun c => (s!"{place}.{name}.{c.hecksName}", c.emits)) ++
        entitiesRows s!"{place}.{name}" entities

def entitiesRows (place : String) : List Entity → List (String × List String)
  | [] => []
  | e :: es => entityRows place e ++ entitiesRows place es

end

/-- Every command and port operation of the aggregate. -/
def aggregateRows (b : Bluebook) (a : Aggregate) : List (String × List String) :=
  let place := s!"{b.name}::{a.hecksName}"
  a.commands.map (fun c => (s!"{place}.{c.hecksName}", c.emits)) ++
    entitiesRows place a.entities ++ a.ports.flatMap (operations place)

/-- Each verb with an event it announces; an operation of the bluebook's own ports announces for no
aggregate. -/
def announcements (b : Bluebook) : List (Option Verb × Announcement) :=
  b.aggregates.flatMap (fun a => (aggregateRows b a).flatMap fun row =>
      (bareNames row.2).map fun event => (splitVerb row.1, some a.hecksName, event)) ++
    b.ports.flatMap fun port => port.operations.flatMap fun op =>
      (bareNames op.events).map fun event =>
        (splitVerb s!"{b.name}::{port.name}.{op.hecksName}", none, event)

section

variable (snake : String → String) (b : Bluebook)

/-- The policy hears an event the verb announces. -/
def Heard (verb : Option Verb) (p : Node b) : Prop :=
  ∃ heard, (verb, heard) ∈ announcements b ∧ hears ((reacting b).get p) heard = true

/-- The next policy hears an event that the dispatched verb announces. -/
def Follows (p q : Node b) : Prop :=
  ∃ verb, dispatch snake b p = some verb ∧ Heard b (some verb) q

/-- An event that can be announced starts a chain of reactions past the limit. -/
def Deep (limit : Nat) : Prop :=
  ∃ verb p chain, Heard b verb p ∧ (p :: chain).IsChain (Follows snake b) ∧
    limit < (p :: chain).length

/-- A silent check means that no chain is past the limit exactly where a chain past the limit, if
there is one, is in the check's sight. -/
theorem silence_misses_nothing_iff (limit : Nat) :
    (∀ fuel, reactionDepthFindings snake b fuel limit = some [] → ¬Deep snake b limit) ↔
      (Deep snake b limit → InSight snake b limit) := by
  constructor
  · intro honest deep
    by_contra unseen
    obtain ⟨fuel, silent⟩ := findings_eq_nil_iff.mpr unseen
    exact honest fuel silent deep
  · intro sighted fuel silent deep
    exact findings_eq_nil_iff.mp ⟨fuel, silent⟩ (sighted deep)

end

section

variable {snake : String → String} {b : Bluebook}

theorem reacts_length {rank : Node b → Nat}
    (falls : ∀ p, ∀ q ∈ successors snake b p, rank q < rank p) {p : Node b} {chain : List (Node b)}
    (reacts : Reacts snake b (p :: chain)) : chain.length ≤ rank p := by
  induction chain generalizing p with
  | nil => exact Nat.zero_le _
  | cons q chain ih =>
    obtain ⟨next, rest⟩ := List.isChain_cons_cons.mp reacts
    have lower := falls p q next
    have bound := ih rest
    rw [List.length_cons]
    omega

theorem mem_verbs_of_reacting {verb : Option Verb} {p : Node b} (h : p ∈ reactingTo b verb) :
    verb ∈ verbs b := by
  have heard := (List.mem_filter.mp h).2
  cases found : (emitted b).lookup verb with
  | none =>
    rw [emittedBy, found] at heard
    cases heard
  | some events =>
    obtain ⟨pre, post, shape, -⟩ := List.lookup_eq_some_iff.mp found
    rw [verbs, shape]
    simp

/-- Where the graph holds what every policy hears, and some verb of it starts each policy, no chain
escapes it: one that does not start at an entry verb goes on backwards to one that does. -/
theorem sighted_of_complete {limit : Nat}
    (covered : ∀ verb p, Heard b verb p → p ∈ reactingTo b verb)
    (reached : ∀ p, ∃ verb, p ∈ reactingTo b verb) (deep : Deep snake b limit) :
    InSight snake b limit := by
  by_contra unseen
  have acyclic : ∀ p, ¬Relation.TransGen (fun p q => q ∈ successors snake b p) p p := by
    intro p cycle
    exact unseen (Or.inl ⟨p, cycle⟩)
  obtain ⟨rank, falls, bound⟩ := Components.rank_of_acyclic acyclic
  have backwards : ∀ (left : Nat) (verb : Option Verb) (p : Node b) (chain : List (Node b)),
      p ∈ reactingTo b verb → Reacts snake b (p :: chain) → limit < (p :: chain).length →
      Fintype.card (Node b) + 1 < (p :: chain).length + left → False := by
    intro left
    induction left with
    | zero =>
      intro verb p chain _ reacts _ large
      have short := reacts_length falls reacts
      have small := bound p
      rw [List.length_cons] at large
      omega
    | succ left ih =>
      intro verb p chain starts reacts long large
      have held := mem_verbs_of_reacting starts
      by_cases entry : verb ∈ entryVerbs snake b
      · refine unseen (Or.inr ⟨verb, entry, p :: chain, ⟨reacts, ?_⟩, long⟩)
        intro q head
        cases head
        exact starts
      · have target : verb ∈ (reactionTargets snake b).map some := by
          by_contra free
          exact entry (List.mem_filter.mpr ⟨held, by simpa using free⟩)
        obtain ⟨v, mem, rfl⟩ := List.mem_map.mp target
        obtain ⟨q, -, dispatches⟩ := List.mem_filterMap.mp mem
        obtain ⟨before, startsQ⟩ := reached q
        have next : p ∈ successors snake b q := by
          rw [successors, dispatches]
          exact starts
        refine ih before q (p :: chain) startsQ (List.isChain_cons_cons.mpr ⟨next, reacts⟩) ?_ ?_
        · exact long.trans (Nat.lt_succ_self _)
        · rw [List.length_cons]
          omega
  obtain ⟨verb, p, chain, heard, follows, long⟩ := deep
  have reacts : Reacts snake b (p :: chain) := by
    apply follows.imp
    rintro q r ⟨v, dispatches, hearsR⟩
    rw [successors, dispatches]
    exact covered (some v) r hearsR
  refine backwards (Fintype.card (Node b) + 1) verb p chain (covered verb p heard) reacts long ?_
  rw [List.length_cons]
  omega

end

/-- A note on an order's line is priced, and what is priced is shipped. -/
def shop : Bluebook where
  name := "Shop"
  aggregates := [{
    hecksName := "Order"
    commands := [⟨"Price", ["Priced"]⟩, ⟨"Ship", ["Shipped"]⟩]
    entities := [.declare "Line" [] [.declare "Note" [⟨"Add", ["NoteAdded"]⟩] []]]
    ports := [] }]
  policies := [⟨"PriceNoted", "NoteAdded", "Order.Price", "", none⟩,
    ⟨"ShipPriced", "Priced", "Order.Ship", "", none⟩]
  ports := []

theorem shop_reacts : (reacting shop).length = 2 := by decide

def priceNoted : Node shop := Fin.cast shop_reacts.symm 0

def shipPriced : Node shop := Fin.cast shop_reacts.symm 1

/-- The note is an entity within an entity, so what its command announces is not in the graph. -/
theorem nested_command_unseen :
    reactionDepthFindings id shop 4 1 = some [] ∧ Deep id shop 1 := by
  constructor
  · decide
  · have adds : (splitVerb "Shop::Order.Line.Note.Add", some "Order", "NoteAdded") ∈
        announcements shop := by decide
    have prices : (some ("Shop", "Order", "Price"), some "Order", "Priced") ∈
        announcements shop := by decide
    refine ⟨_, priceNoted, [shipPriced], ⟨_, adds, by decide⟩, ?_, Nat.lt_succ_self 1⟩
    apply List.isChain_pair.mpr
    exact ⟨("Shop", "Order", "Price"), by decide, _, prices, by decide⟩

end Hecks.ModelCheck
