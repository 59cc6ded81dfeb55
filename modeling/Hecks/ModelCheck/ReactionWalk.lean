import Hecks.ModelCheck.ReactionCycles

/-! The longest chain of reactions a policy starts. What a policy starts that reaches no loop is
remembered from one search to the next; the rest is searched path by path. -/
namespace Hecks.ModelCheck

/-- The reaction graph of one bluebook, with the verb each policy dispatches. -/
structure ReactionChains (α ν : Type) extends ReactionCycles α where
  dispatch : α → ν

/-- What a walk remembers: the chains that were settled, which policies reach a loop, how much the
last search did and whether it gave up. -/
structure ReactionWalk (α ν : Type) where
  settled : α → Option (List (α × ν))
  reaches : α → Option Bool
  work : Nat
  capped : Bool

def ReactionWalk.new {α ν : Type} : ReactionWalk α ν := ⟨fun _ => none, fun _ => none, 0, false⟩

section

variable {α τ σ : Type}

/-- `map`, one after the other. -/
def eachOf (f : α → σ → Option (τ × σ)) : List α → σ → Option (List τ × σ)
  | [], w => some ([], w)
  | p :: ps, w => do
      let (x, w) ← f p w
      let (xs, w) ← eachOf f ps w
      return (x :: xs, w)

/-- `any?`, which stops at the first. -/
def anyOf (f : α → σ → Option (Bool × σ)) : List α → σ → Option (Bool × σ)
  | [], w => some (false, w)
  | p :: ps, w => do
      let (found, w) ← f p w
      if found then return (true, w)
      anyOf f ps w

end

namespace ReactionChains

section

variable {α ν : Type} [DecidableEq α] (g : ReactionChains α ν) (looping : List α)

def step (p : α) : α × ν := (p, g.dispatch p)

/-- No answer when the walk is deeper than the fuel, as for those that follow. -/
def settled : Nat → α → ReactionWalk α ν → Option (List (α × ν) × ReactionWalk α ν)
  | 0, _, _ => none
  | fuel + 1, p, w =>
      match w.settled p with
      | some chain => some (chain, w)
      | none => do
          let (chains, w) ← eachOf (settled fuel) (g.successors p) w
          let chain := g.step p :: maxBySize chains
          return (chain, { w with settled := Function.update w.settled p (some chain) })

def reachesLoop : Nat → α → ReactionWalk α ν → Option (Bool × ReactionWalk α ν)
  | 0, _, _ => none
  | fuel + 1, p, w =>
      match w.reaches p with
      | some reaches => some (reaches, w)
      | none =>
          let found :=
            if looping.contains p then some (true, w)
            else anyOf (reachesLoop fuel) (g.successors p) w
          found.map fun (reaches, w) =>
            (reaches, { w with reaches := Function.update w.reaches p (some reaches) })

def search (deep : Nat) :
    Nat → List α → α → ReactionWalk α ν → Option (List (α × ν) × ReactionWalk α ν)
  | 0, _, _, _ => none
  | fuel + 1, path, p, w => do
      let (reaches, w) ← g.reachesLoop looping deep p w
      if !reaches then g.settled deep p w
      else
        let w := { w with work := w.work + 1 }
        if workLimit < w.work then return ([], { w with capped := true })
        let next := (g.successors p).filter fun q => !path.contains q && q != p
        let (chains, w) ← eachOf (search deep fuel (path ++ [p])) next w
        return (g.step p :: maxBySize chains, w)

def longest (fuel : Nat) (starts : List α) (w : ReactionWalk α ν) :
    Option (List (α × ν) × ReactionWalk α ν) := do
  let (chains, w) ← eachOf (g.search looping fuel fuel []) starts { w with work := 0, capped := false }
  return (maxBySize chains, w)

/-- What a walk has become after some searches from policies of the graph. -/
inductive Searched (fuel : Nat) : ReactionWalk α ν → Prop
  | new : Searched fuel .new
  | longest {starts : List α} {w w' : ReactionWalk α ν} {chain : List (α × ν)} :
      (∀ p ∈ starts, p ∈ g.policies) → Searched fuel w →
        g.longest looping fuel starts w = some (chain, w') → Searched fuel w'

omit [DecidableEq α] in
/-- Policies each of which hears what the one before it dispatches, the first a starting one, each
of them once. -/
structure IsChain (starts chain : List α) : Prop where
  first : ∀ p ∈ chain.head?, p ∈ starts
  follows : chain.IsChain fun p q => q ∈ g.successors p
  once : chain.Nodup

/-- The looping policies are those that lie on a cycle. -/
def Looping : Prop :=
  ∀ p ∈ g.policies, p ∈ looping ↔ Relation.TransGen (fun p q => q ∈ g.successors p) p p

end

/-! ### One after the other -/

section

variable {α τ σ : Type} {Inv : σ → Prop} {After : σ → σ → Prop}

/-- What each of the calls keeps and answers, all of them do. -/
theorem eachOf_spec {f : α → σ → Option (τ × σ)} {P : α → τ → σ → Prop}
    (refl : ∀ w, After w w) (trans : ∀ u v w, After u v → After v w → After u w)
    (later : ∀ p x v w, P p x v → After v w → P p x w) {ps : List α}
    (each : ∀ p ∈ ps, ∀ w, Inv w → ∃ x w', f p w = some (x, w') ∧ Inv w' ∧ After w w' ∧ P p x w')
    (w : σ) (inv : Inv w) :
    ∃ xs w', eachOf f ps w = some (xs, w') ∧ Inv w' ∧ After w w' ∧
      (∀ p ∈ ps, ∃ x ∈ xs, P p x w') ∧ ∀ x ∈ xs, ∃ p ∈ ps, P p x w' := by
  induction ps generalizing w with
  | nil => exact ⟨[], w, rfl, inv, refl w, nofun, nofun⟩
  | cons p ps ih =>
    obtain ⟨here, others⟩ := List.forall_mem_cons.mp each
    obtain ⟨x, v, ran, invV, afterV, post⟩ := here w inv
    obtain ⟨xs, u, rest, invU, afterU, forth, back⟩ := ih others v invV
    have first := later p x v u post afterU
    refine ⟨x :: xs, u, ?_, invU, trans w v u afterV afterU, ?_, ?_⟩
    · rw [eachOf, ran]
      simp [rest]
    · refine List.forall_mem_cons.mpr ⟨⟨x, List.mem_cons_self, first⟩, fun q mem => ?_⟩
      obtain ⟨y, inXs, holds⟩ := forth q mem
      exact ⟨y, List.mem_cons_of_mem x inXs, holds⟩
    · refine List.forall_mem_cons.mpr ⟨⟨p, List.mem_cons_self, first⟩, fun y mem => ?_⟩
      obtain ⟨q, inPs, holds⟩ := back y mem
      exact ⟨q, List.mem_cons_of_mem p inPs, holds⟩

theorem anyOf_spec {f : α → σ → Option (Bool × σ)} {holds : α → Prop} {ps : List α}
    (refl : ∀ w, After w w) (trans : ∀ u v w, After u v → After v w → After u w)
    (each : ∀ p ∈ ps, ∀ w, Inv w →
      ∃ x w', f p w = some (x, w') ∧ Inv w' ∧ After w w' ∧ (x = true ↔ holds p))
    (w : σ) (inv : Inv w) :
    ∃ x w', anyOf f ps w = some (x, w') ∧ Inv w' ∧ After w w' ∧ (x = true ↔ ∃ p ∈ ps, holds p) := by
  induction ps generalizing w with
  | nil => exact ⟨false, w, rfl, inv, refl w, by simp⟩
  | cons p ps ih =>
    obtain ⟨here, others⟩ := List.forall_mem_cons.mp each
    obtain ⟨x, v, ran, invV, afterV, same⟩ := here w inv
    cases x with
    | true =>
      refine ⟨true, v, by rw [anyOf, ran]; rfl, invV, afterV, ?_⟩
      exact ⟨fun _ => ⟨p, List.mem_cons_self, same.mp rfl⟩, fun _ => rfl⟩
    | false =>
      obtain ⟨y, u, rest, invU, afterU, some'⟩ := ih others v invV
      refine ⟨y, u, by rw [anyOf, ran]; simpa using rest, invU, trans w v u afterV afterU, ?_⟩
      rw [some', List.exists_mem_cons_iff, ← same]
      simp

end

section

variable {α ν : Type} [DecidableEq α] {g : ReactionChains α ν} {looping path : List α} {fuel : Nat}
  {p : α} {w : ReactionWalk α ν}

variable (g looping) in
omit [DecidableEq α] in
/-- Some policy the policy can come to start lies on a loop. -/
def ReachesLoop (p : α) : Prop := ∃ q ∈ looping, Components.Leads g.successors p q

variable (g) in
omit [DecidableEq α] in
/-- A chain of policies from this one. -/
def From (p : α) (chain : List α) : Prop :=
  chain.head? = some p ∧ chain.IsChain fun p q => q ∈ g.successors p

variable (g looping) in
omit [DecidableEq α] in
/-- What a policy that reaches no loop starts, whatever led to it. -/
def Settles (p : α) (chain : List (α × ν)) : Prop :=
  ¬ g.ReachesLoop looping p ∧ ∃ ps, chain = ps.map g.step ∧ g.From p ps ∧
    ∀ ps', g.From p ps' → ps'.length ≤ ps.length

variable (g looping) in
omit [DecidableEq α] in
/-- What is remembered is so. -/
structure Remembers (w : ReactionWalk α ν) : Prop where
  settled : ∀ p chain, w.settled p = some chain → g.Settles looping p chain
  reaches : ∀ p reaches, w.reaches p = some reaches →
    (reaches = true ↔ g.ReachesLoop looping p)

/-- The search itself goes on as it was. -/
def SameSearch (w w' : ReactionWalk α ν) : Prop := w'.work = w.work ∧ w'.capped = w.capped

variable (g looping) in
omit [DecidableEq α] in
/-- Policies a walk went through on its way to this one, none of them twice. -/
structure Way (path : List α) (p : α) : Prop where
  once : path.Nodup
  within : ∀ q ∈ path, q ∈ g.policies
  leads : ∀ q ∈ path, Relation.TransGen (fun p q => q ∈ g.successors p) q p

omit [DecidableEq α] in
theorem Way.nil : g.Way [] p := ⟨List.nodup_nil, nofun, nofun⟩

omit [DecidableEq α] in
theorem Way.snoc (way : g.Way path p) (mem : p ∈ g.policies) (new : p ∉ path) {q : α}
    (next : q ∈ g.successors p) : g.Way (path ++ [p]) q := by
  refine ⟨List.nodup_append.mpr ⟨way.once, List.nodup_singleton p, ?_⟩, ?_, ?_⟩
  · rintro x inPath y one rfl
    cases List.mem_singleton.mp one
    exact new inPath
  · intro x inPath
    obtain inPath | one := List.mem_append.mp inPath
    · exact way.within x inPath
    · cases List.mem_singleton.mp one
      exact mem
  · intro x inPath
    obtain inPath | one := List.mem_append.mp inPath
    · exact (way.leads x inPath).tail next
    · cases List.mem_singleton.mp one
      exact .single next

omit [DecidableEq α] in
/-- There are more policies than a way holds. -/
theorem Way.room (way : g.Way path p) (mem : p ∈ g.policies) (new : p ∉ path) :
    path.length < g.policies.length := by
  have once : (p :: path).Nodup := List.nodup_cons.mpr ⟨new, way.once⟩
  have sub : p :: path ⊆ g.policies := List.cons_subset.mpr ⟨mem, way.within⟩
  exact (once.subperm sub).length_le

omit [DecidableEq α] in
theorem reachesLoop_step (p : α) : g.ReachesLoop looping p ↔
    p ∈ looping ∨ ∃ q ∈ g.successors p, g.ReachesLoop looping q := by
  constructor
  · rintro ⟨q, loops, path⟩
    obtain rfl | ⟨r, edge, rest⟩ := Relation.ReflTransGen.cases_head path
    · exact Or.inl loops
    · exact Or.inr ⟨r, edge, q, loops, rest⟩
  · rintro (loops | ⟨q, edge, r, loops, path⟩)
    · exact ⟨p, loops, .refl⟩
    · exact ⟨r, loops, .head edge path⟩

omit [DecidableEq α] in
theorem sameSearch_trans (u v w : ReactionWalk α ν) (first : SameSearch u v)
    (second : SameSearch v w) : SameSearch u w :=
  ⟨second.1.trans first.1, second.2.trans first.2⟩

theorem Remembers.note_reaches (inv : g.Remembers looping w) {reaches : Bool}
    (holds : reaches = true ↔ g.ReachesLoop looping p) :
    g.Remembers looping { w with reaches := Function.update w.reaches p (some reaches) } := by
  refine ⟨inv.settled, ?_⟩
  intro q r stored
  dsimp only at stored
  by_cases here : q = p
  · subst here
    rw [Function.update_self] at stored
    cases stored
    exact holds
  · rw [Function.update_of_ne here] at stored
    exact inv.reaches q r stored

theorem Remembers.note_settled (inv : g.Remembers looping w) {chain : List (α × ν)}
    (settles : g.Settles looping p chain) :
    g.Remembers looping { w with settled := Function.update w.settled p (some chain) } := by
  refine ⟨?_, inv.reaches⟩
  intro q c stored
  dsimp only at stored
  by_cases here : q = p
  · subst here
    rw [Function.update_self] at stored
    cases stored
    exact settles
  · rw [Function.update_of_ne here] at stored
    exact inv.settled q c stored

omit [DecidableEq α] in
theorem staysCapped_trans (u v w : ReactionWalk α ν) (first : u.capped = true → v.capped = true)
    (second : v.capped = true → w.capped = true) (capped : u.capped = true) : w.capped = true :=
  second (first capped)

theorem reachesLoop_spec (loops : g.Looping looping) (way : g.Way path p)
    (safe : ∀ q ∈ path, q ∉ looping) (mem : p ∈ g.policies)
    (deep : g.policies.length ≤ fuel + path.length) (inv : g.Remembers looping w) :
    ∃ reaches w', g.reachesLoop looping fuel p w = some (reaches, w') ∧ g.Remembers looping w' ∧
      SameSearch w w' ∧ (reaches = true ↔ g.ReachesLoop looping p) := by
  induction fuel generalizing path p w with
  | zero =>
    have new : p ∉ path := fun back =>
      safe p back ((loops p mem).mpr (way.leads p back))
    have room := way.room mem new
    omega
  | succ fuel ih =>
    have new : p ∉ path := fun back =>
      safe p back ((loops p mem).mpr (way.leads p back))
    rw [reachesLoop]
    cases known : w.reaches p with
    | some reaches => exact ⟨reaches, w, rfl, inv, ⟨rfl, rfl⟩, inv.reaches p reaches known⟩
    | none =>
      have answered : ∃ reaches v, (if looping.contains p then some (true, w)
          else anyOf (g.reachesLoop looping fuel) (g.successors p) w) = some (reaches, v) ∧
          g.Remembers looping v ∧ SameSearch w v ∧
          (reaches = true ↔ g.ReachesLoop looping p) := by
        by_cases looped : p ∈ looping
        · refine ⟨true, w, if_pos (by simpa using looped), inv, ⟨rfl, rfl⟩, ?_⟩
          exact ⟨fun _ => ⟨p, looped, .refl⟩, fun _ => rfl⟩
        · rw [if_neg (by simpa using looped)]
          have each : ∀ q ∈ g.successors p, ∀ w, g.Remembers looping w →
              ∃ x w', g.reachesLoop looping fuel q w = some (x, w') ∧ g.Remembers looping w' ∧
                SameSearch w w' ∧ (x = true ↔ g.ReachesLoop looping q) := by
            intro q edge v invV
            refine ih (way.snoc mem new edge) ?_ (g.within p mem q edge) ?_ invV
            · intro r inPath
              obtain inPath | one := List.mem_append.mp inPath
              · exact safe r inPath
              · cases List.mem_singleton.mp one
                exact looped
            · rw [List.length_append, List.length_singleton]
              omega
          obtain ⟨x, v, ran, invV, same, holds⟩ :=
            anyOf_spec (fun w => ⟨rfl, rfl⟩) sameSearch_trans each w inv
          refine ⟨x, v, ran, invV, same, ?_⟩
          rw [holds, reachesLoop_step p]
          exact ⟨Or.inr, fun h => h.resolve_left looped⟩
      obtain ⟨reaches, v, ran, invV, same, holds⟩ := answered
      refine ⟨reaches, _, ?_, invV.note_reaches holds, same, holds⟩
      dsimp only
      rw [ran]
      rfl

/-! ### What is settled -/

omit [DecidableEq α] in
theorem from_cons_iff {q : α} {rest : List α} : g.From p (q :: rest) ↔
    q = p ∧ (rest = [] ∨ ∃ r ∈ g.successors p, g.From r rest) := by
  cases rest with
  | nil => simp [From]
  | cons r rest =>
    simp only [From, List.head?_cons, Option.some.injEq, List.isChain_cons_cons, reduceCtorEq,
      false_or]
    constructor
    · rintro ⟨rfl, edge, follows⟩
      exact ⟨rfl, r, edge, rfl, follows⟩
    · rintro ⟨rfl, s, edge, rfl, follows⟩
      exact ⟨rfl, edge, follows⟩

omit [DecidableEq α] in
theorem settles_of_nexts (safe : ¬ g.ReachesLoop looping p) {chains : List (List (α × ν))}
    (forth : ∀ q ∈ g.successors p, ∃ c ∈ chains, g.Settles looping q c)
    (back : ∀ c ∈ chains, ∃ q ∈ g.successors p, g.Settles looping q c) :
    g.Settles looping p (g.step p :: maxBySize chains) := by
  obtain ⟨most, top⟩ := maxBySize_spec chains
  have tail : ∃ qs, maxBySize chains = qs.map g.step ∧
      (qs = [] ∨ ∃ q ∈ g.successors p, g.From q qs) := by
    obtain none | mem := top
    · exact ⟨[], none, Or.inl rfl⟩
    · obtain ⟨q, edge, -, qs, same, starts, -⟩ := back _ mem
      exact ⟨qs, same, Or.inr ⟨q, edge, starts⟩⟩
  obtain ⟨qs, same, starts⟩ := tail
  refine ⟨safe, p :: qs, by rw [same]; rfl, from_cons_iff.mpr ⟨rfl, starts⟩, ?_⟩
  intro ps' starts'
  cases ps' with
  | nil => exact Nat.zero_le _
  | cons r rest =>
    obtain ⟨rfl, rfl | ⟨q, edge, further⟩⟩ := from_cons_iff.mp starts'
    · simp
    · obtain ⟨c, mem, -, cs, rfl, -, longest⟩ := forth q edge
      have shorter := most _ mem
      have bound := longest rest further
      rw [same, List.length_map, List.length_map] at shorter
      rw [List.length_cons, List.length_cons]
      omega

theorem settled_spec (loops : g.Looping looping) (way : g.Way path p)
    (mem : p ∈ g.policies) (safe : ¬ g.ReachesLoop looping p)
    (deep : g.policies.length ≤ fuel + path.length) (inv : g.Remembers looping w) :
    ∃ chain w', g.settled fuel p w = some (chain, w') ∧ g.Remembers looping w' ∧
      SameSearch w w' ∧ g.Settles looping p chain := by
  have new : p ∉ path := fun back =>
    safe ⟨p, (loops p mem).mpr (way.leads p back), .refl⟩
  have room := way.room mem new
  induction fuel generalizing path p w with
  | zero => omega
  | succ fuel ih =>
    rw [settled]
    cases known : w.settled p with
    | some chain => exact ⟨chain, w, rfl, inv, ⟨rfl, rfl⟩, inv.settled p chain known⟩
    | none =>
      have each : ∀ q ∈ g.successors p, ∀ w, g.Remembers looping w →
          ∃ c w', g.settled fuel q w = some (c, w') ∧ g.Remembers looping w' ∧
            SameSearch w w' ∧ g.Settles looping q c := by
        intro q edge v invV
        have mem' := g.within p mem q edge
        have safe' : ¬ g.ReachesLoop looping q := fun reaches =>
          safe ((reachesLoop_step p).mpr (Or.inr ⟨q, edge, reaches⟩))
        have way' := way.snoc mem new edge
        have new' : q ∉ path ++ [p] := fun back =>
          safe' ⟨q, (loops q mem').mpr (way'.leads q back), .refl⟩
        exact ih way' mem' safe' (by rw [List.length_append, List.length_singleton]; omega) invV
          new' (way'.room mem' new')
      obtain ⟨chains, v, ran, invV, same, forth, back⟩ :=
        eachOf_spec (P := fun q c _ => g.Settles looping q c) (fun w => ⟨rfl, rfl⟩)
          sameSearch_trans (fun _ _ _ _ settles _ => settles) each w inv
      have settles := settles_of_nexts safe forth back
      refine ⟨_, _, ?_, invV.note_settled settles, same, settles⟩
      dsimp only
      rw [ran]
      rfl

/-! ### What is searched -/

omit [DecidableEq α] in
theorem leads_of_from {chain : List α} (starts : g.From p chain) :
    ∀ q ∈ chain, Components.Leads g.successors p q := by
  induction chain generalizing p with
  | nil => nofun
  | cons r rest ih =>
    obtain ⟨rfl, rfl | ⟨q, edge, further⟩⟩ := from_cons_iff.mp starts
    · intro q mem
      cases List.mem_singleton.mp mem
      exact .refl
    · intro s mem
      obtain rfl | mem := List.mem_cons.mp mem
      · exact .refl
      · exact .head edge (ih further s mem)

omit [DecidableEq α] in
/-- A chain from a policy that reaches no loop has each policy once. -/
theorem nodup_of_from (loops : g.Looping looping) (mem : p ∈ g.policies)
    (safe : ¬ g.ReachesLoop looping p) {chain : List α} (starts : g.From p chain) :
    chain.Nodup := by
  have leads : chain.Pairwise (Relation.TransGen fun p q => q ∈ g.successors p) := by
    refine (starts.2.imp fun a b edge => ?_).pairwise
    exact Relation.TransGen.single edge
  refine leads.imp_of_mem ?_
  rintro a b inChain - back rfl
  have path := leads_of_from starts a inChain
  have inside := Components.leads_within g.within mem path
  exact safe ⟨a, (loops a inside).mpr back, path⟩

variable (g) in
omit [DecidableEq α] in
/-- A chain from this policy that meets nothing twice, nor the path before it. -/
structure Clear (path : List α) (p : α) (chain : List α) : Prop where
  starts : g.From p chain
  once : chain.Nodup
  apart : ∀ q ∈ path, q ∉ chain

variable (g) in
omit [DecidableEq α] in
/-- What a search from this policy answers: a clear chain, the longest unless the search gave up. -/
def Answers (path : List α) (p : α) (chain : List (α × ν)) (w : ReactionWalk α ν) : Prop :=
  ∃ ps, chain = ps.map g.step ∧ (ps = [] ∨ g.Clear path p ps) ∧
    (w.capped = false → ∀ ps', g.Clear path p ps' → ps'.length ≤ ps.length)

omit [DecidableEq α] in
/-- A remembered chain cannot meet the path that led to it: what is on the path reaches a loop. -/
theorem Settles.answers (loops : g.Looping looping) (mem : p ∈ g.policies)
    (loopy : ∀ q ∈ path, g.ReachesLoop looping q) {chain : List (α × ν)}
    (settles : g.Settles looping p chain) (w : ReactionWalk α ν) : g.Answers path p chain w := by
  obtain ⟨safe, ps, rfl, starts, longest⟩ := settles
  refine ⟨ps, rfl, Or.inr ⟨starts, nodup_of_from loops mem safe starts, ?_⟩,
    fun _ ps' clear => longest ps' clear.starts⟩
  intro q inPath inChain
  obtain ⟨r, loop, onward⟩ := loopy q inPath
  exact safe ⟨r, loop, (leads_of_from starts q inChain).trans onward⟩

omit [DecidableEq α] in
theorem clear_cons_iff {qs : List α} : g.Clear path p (p :: qs) ↔
    p ∉ path ∧ (qs = [] ∨ ∃ q ∈ g.successors p, q ∉ path ∧ q ≠ p ∧ g.Clear (path ++ [p]) q qs) := by
  constructor
  · rintro ⟨starts, once, apart⟩
    obtain ⟨new, once⟩ := List.nodup_cons.mp once
    refine ⟨fun inPath => apart p inPath List.mem_cons_self, ?_⟩
    obtain ⟨-, none | ⟨q, edge, further⟩⟩ := from_cons_iff.mp starts
    · exact Or.inl none
    · have head : q ∈ qs := List.mem_of_mem_head? (by rw [further.1]; rfl)
      refine Or.inr ⟨q, edge, ?_, ?_, further, once, ?_⟩
      · exact fun inPath => apart q inPath (List.mem_cons_of_mem p head)
      · rintro rfl
        exact new head
      · intro r inPath inQs
        obtain inPath | one := List.mem_append.mp inPath
        · exact apart r inPath (List.mem_cons_of_mem p inQs)
        · cases List.mem_singleton.mp one
          exact new inQs
  · rintro ⟨new, rfl | ⟨q, edge, -, -, starts, once, apart⟩⟩
    · refine ⟨from_cons_iff.mpr ⟨rfl, Or.inl rfl⟩, List.nodup_singleton p, ?_⟩
      intro q inPath one
      cases List.mem_singleton.mp one
      exact new inPath
    · refine ⟨from_cons_iff.mpr ⟨rfl, Or.inr ⟨q, edge, starts⟩⟩, List.nodup_cons.mpr ⟨?_, once⟩, ?_⟩
      · exact apart p (by simp)
      · intro r inPath mem
        obtain rfl | mem := List.mem_cons.mp mem
        · exact new inPath
        · exact apart r (List.mem_append_left _ inPath) mem

omit [DecidableEq α] in
/-- One policy further: the longest of what the policies open to it start. -/
theorem answers_of_nexts (new : p ∉ path) {chains : List (List (α × ν))} {next : List α}
    (opens : ∀ q, q ∈ next ↔ q ∈ g.successors p ∧ q ∉ path ∧ q ≠ p)
    (forth : ∀ q ∈ next, ∃ c ∈ chains, g.Answers (path ++ [p]) q c w)
    (back : ∀ c ∈ chains, ∃ q ∈ next, g.Answers (path ++ [p]) q c w) :
    g.Answers path p (g.step p :: maxBySize chains) w := by
  obtain ⟨most, top⟩ := maxBySize_spec chains
  have tail : ∃ qs, maxBySize chains = qs.map g.step ∧
      (qs = [] ∨ ∃ q ∈ g.successors p, q ∉ path ∧ q ≠ p ∧ g.Clear (path ++ [p]) q qs) := by
    obtain none | mem := top
    · exact ⟨[], none, Or.inl rfl⟩
    · obtain ⟨q, inNext, qs, same, clear, -⟩ := back _ mem
      obtain ⟨edge, away, other⟩ := (opens q).mp inNext
      exact ⟨qs, same, clear.imp_right fun clear => ⟨q, edge, away, other, clear⟩⟩
  obtain ⟨qs, same, clear⟩ := tail
  refine ⟨p :: qs, by rw [same]; rfl, Or.inr (clear_cons_iff.mpr ⟨new, clear⟩), ?_⟩
  intro uncapped ps' clear'
  cases ps' with
  | nil => exact Nat.zero_le _
  | cons r rest =>
    obtain ⟨rfl, -⟩ := from_cons_iff.mp clear'.starts
    obtain ⟨-, rfl | ⟨q, edge, away, other, further⟩⟩ := clear_cons_iff.mp clear'
    · simp
    · obtain ⟨c, mem, cs, rfl, -, longest⟩ := forth q ((opens q).mpr ⟨edge, away, other⟩)
      have shorter := most _ mem
      have bound := longest uncapped rest further
      rw [same, List.length_map, List.length_map] at shorter
      rw [List.length_cons, List.length_cons]
      omega

omit [DecidableEq α] in
theorem Answers.later {chain : List (α × ν)} {v : ReactionWalk α ν} (h : g.Answers path p chain v)
    (after : v.capped = true → w.capped = true) : g.Answers path p chain w := by
  obtain ⟨ps, same, clear, longest⟩ := h
  refine ⟨ps, same, clear, fun uncapped => longest ?_⟩
  by_contra capped
  rw [after (by simpa using capped)] at uncapped
  cases uncapped

theorem search_of_loop {deep : Nat} {v : ReactionWalk α ν}
    (ran : g.reachesLoop looping deep p w = some (true, v)) :
    g.search looping deep (fuel + 1) path p w =
      if workLimit < v.work + 1 then some ([], { v with work := v.work + 1, capped := true })
      else (eachOf (g.search looping deep fuel (path ++ [p]))
        ((g.successors p).filter fun q => !path.contains q && q != p)
        { v with work := v.work + 1 }).map fun r => (g.step p :: maxBySize r.1, r.2) := by
  simp only [search, ran, Option.bind_eq_bind, Option.bind_some, Bool.not_true, Bool.false_eq_true,
    if_false]
  split
  · rfl
  · cases eachOf (g.search looping deep fuel (path ++ [p]))
      ((g.successors p).filter fun q => !path.contains q && q != p)
      { v with work := v.work + 1 } <;> rfl

theorem search_spec {deep : Nat} (loops : g.Looping looping) (enough : g.policies.length ≤ deep)
    (way : g.Way path p) (loopy : ∀ q ∈ path, g.ReachesLoop looping q) (mem : p ∈ g.policies)
    (new : p ∉ path) (left : g.policies.length ≤ fuel + path.length)
    (inv : g.Remembers looping w) :
    ∃ chain w', g.search looping deep fuel path p w = some (chain, w') ∧ g.Remembers looping w' ∧
      (w.capped = true → w'.capped = true) ∧ g.Answers path p chain w' := by
  have room := way.room mem new
  induction fuel generalizing path p w with
  | zero => omega
  | succ fuel ih =>
    obtain ⟨reaches, v, ran, invV, same, holds⟩ :=
      reachesLoop_spec loops .nil nofun mem (by simpa using enough) inv
    cases reaches with
    | false =>
      have safe : ¬ g.ReachesLoop looping p := fun reaches => by cases holds.mpr reaches
      obtain ⟨chain, u, found, invU, sameU, settles⟩ :=
        settled_spec loops .nil mem safe (by simpa using enough) invV
      refine ⟨chain, u, ?_, invU, ?_, settles.answers loops mem loopy u⟩
      · rw [search, ran]
        exact found
      · rw [sameU.2, same.2]
        exact id
    | true =>
      have loop := holds.mp rfl
      rw [search_of_loop ran]
      by_cases gave : workLimit < v.work + 1
      · exact ⟨[], _, if_pos gave, ⟨invV.settled, invV.reaches⟩, fun _ => rfl, [], rfl, Or.inl rfl,
          nofun⟩
      · have opens : ∀ q, q ∈ (g.successors p).filter (fun q => !path.contains q && q != p) ↔
            q ∈ g.successors p ∧ q ∉ path ∧ q ≠ p := by
          intro q
          simp
        have each : ∀ q ∈ (g.successors p).filter (fun q => !path.contains q && q != p), ∀ w,
            g.Remembers looping w → ∃ c w',
              g.search looping deep fuel (path ++ [p]) q w = some (c, w') ∧
              g.Remembers looping w' ∧ (w.capped = true → w'.capped = true) ∧
              g.Answers (path ++ [p]) q c w' := by
          intro q inNext u invU
          obtain ⟨edge, away, other⟩ := (opens q).mp inNext
          have mem' := g.within p mem q edge
          have way' := way.snoc mem new edge
          have new' : q ∉ path ++ [p] := by simp [away, other]
          refine ih way' ?_ mem' new' ?_ invU (way'.room mem' new')
          · intro r inPath
            obtain inPath | one := List.mem_append.mp inPath
            · exact loopy r inPath
            · cases List.mem_singleton.mp one
              exact loop
          · rw [List.length_append, List.length_singleton]
            omega
        obtain ⟨chains, u, found, invU, after, forth, back⟩ :=
          eachOf_spec (P := g.Answers (path ++ [p])) (fun _ => id) staysCapped_trans
            (fun _ _ _ _ answers after => answers.later after) each
            { v with work := v.work + 1 } ⟨invV.settled, invV.reaches⟩
        refine ⟨g.step p :: maxBySize chains, u, ?_, invU, ?_, answers_of_nexts new opens forth back⟩
        · rw [if_neg gave, found]
          rfl
        · rw [← same.2]
          exact after

theorem longest_spec (loops : g.Looping looping) (enough : g.policies.length ≤ fuel)
    {starts : List α} (within : ∀ p ∈ starts, p ∈ g.policies) (inv : g.Remembers looping w) :
    ∃ chain w', g.longest looping fuel starts w = some (chain, w') ∧ g.Remembers looping w' ∧
      ∃ ps, chain = ps.map g.step ∧ g.IsChain starts ps ∧
        (w'.capped = false → ∀ ps', g.IsChain starts ps' → ps'.length ≤ ps.length) := by
  have each : ∀ p ∈ starts, ∀ w, g.Remembers looping w → ∃ c w',
      g.search looping fuel fuel [] p w = some (c, w') ∧ g.Remembers looping w' ∧
      (w.capped = true → w'.capped = true) ∧ g.Answers [] p c w' := fun p mem w inv =>
    search_spec loops enough .nil nofun (within p mem) List.not_mem_nil (by simpa using enough) inv
  obtain ⟨chains, u, found, invU, -, forth, back⟩ :=
    eachOf_spec (P := g.Answers []) (fun _ => id) staysCapped_trans
      (fun _ _ _ _ answers after => answers.later after) each
      { w with work := 0, capped := false } ⟨inv.settled, inv.reaches⟩
  obtain ⟨most, top⟩ := maxBySize_spec chains
  have shape : ∃ ps, maxBySize chains = ps.map g.step ∧ g.IsChain starts ps := by
    obtain none | mem := top
    · exact ⟨[], none, nofun, .nil, List.nodup_nil⟩
    · obtain ⟨p, inStarts, ps, same, none | clear, -⟩ := back _ mem
      · subst none
        exact ⟨[], same, nofun, .nil, List.nodup_nil⟩
      · refine ⟨ps, same, ?_, clear.starts.2, clear.once⟩
        intro q head
        rw [clear.starts.1] at head
        cases head
        exact inStarts
  obtain ⟨ps, same, chain⟩ := shape
  refine ⟨maxBySize chains, u, by rw [longest, found]; rfl, invU, ps, same, chain, ?_⟩
  intro uncapped ps' other
  cases ps' with
  | nil => exact Nat.zero_le _
  | cons p rest =>
    obtain ⟨c, mem, cs, rfl, -, longest⟩ := forth p (other.first p rfl)
    have shorter := most _ mem
    have bound := longest uncapped (p :: rest) ⟨⟨rfl, other.follows⟩, other.once, nofun⟩
    rw [same, List.length_map, List.length_map] at shorter
    omega

omit [DecidableEq α] in
theorem remembers_new : g.Remembers looping .new := ⟨nofun, nofun⟩

theorem Searched.remembers (loops : g.Looping looping) (enough : g.policies.length ≤ fuel)
    (searched : g.Searched looping fuel w) : g.Remembers looping w := by
  induction searched with
  | new => exact remembers_new
  | longest within _ ran ih =>
    obtain ⟨chain, w', found, inv, -⟩ := longest_spec loops enough within ih
    cases ran.symm.trans found
    exact inv

/-- Whatever was searched before, a search ends and answers a chain of policies from a starting
one, each once, and unless it gave up no such chain is longer. -/
theorem longest_chain (loops : g.Looping looping) (enough : g.policies.length ≤ fuel)
    (searched : g.Searched looping fuel w) {starts : List α}
    (within : ∀ p ∈ starts, p ∈ g.policies) :
    ∃ chain w', g.longest looping fuel starts w = some (chain, w') ∧
      ∃ ps, chain = ps.map g.step ∧ g.IsChain starts ps ∧
        (w'.capped = false → ∀ ps', g.IsChain starts ps' → ps'.length ≤ ps.length) := by
  obtain ⟨chain, w', found, -, answer⟩ :=
    longest_spec loops enough within (searched.remembers loops enough)
  exact ⟨chain, w', found, answer⟩

end

/-- The graph of `ReactionCycles.four`, each policy with a number for the verb it dispatches. -/
def four : ReactionChains (Fin 4) Nat where
  toReactionCycles := .four
  dispatch := fun p => p.val

theorem looping_of_four : four.Looping [0, 2, 1] := by
  have unheard : ∀ q : Fin 4, 3 ∉ four.successors q := by decide
  have back : ∀ p : Fin 4, p ∈ [0, 2, 1] →
      p ∈ four.successors p ∨ ∃ q, q ∈ four.successors p ∧ p ∈ four.successors q := by decide
  intro p _
  constructor
  · intro mem
    obtain edge | ⟨q, there, here⟩ := back p mem
    · exact .single edge
    · exact .tail (.single there) here
  · intro cycle
    have heard : p ≠ 3 := by
      rintro rfl
      obtain ⟨q, -, edge⟩ := Relation.TransGen.tail'_iff.mp cycle
      exact unheard q edge
    have others : ∀ p : Fin 4, p ≠ 3 → p ∈ [0, 2, 1] := by decide
    exact others p heard

theorem longest_of_four : ∃ chain w', four.longest [0, 2, 1] 4 [3] .new = some (chain, w') ∧
    ∃ ps, chain = ps.map four.step ∧ four.IsChain [3] ps ∧
      (w'.capped = false → ∀ ps', four.IsChain [3] ps' → ps'.length ≤ ps.length) :=
  longest_chain looping_of_four (by decide) .new (by decide)

end ReactionChains

/-! ### The reactions of a bluebook -/

section

variable {α ν : Type} {g : ReactionChains α ν}

/-- The members of the loops are the policies that lie on a cycle. -/
theorem ReactionCycles.looping_of_loops {gs : List (List α)}
    (loops : ∀ group, group ∈ gs ↔ g.toReactionCycles.IsLoop group) : g.Looping gs.flatten := by
  classical
  intro p mem
  constructor
  · intro inLoop
    obtain ⟨group, inGs, inGroup⟩ := List.mem_flatten.mp inLoop
    obtain ⟨ordered, ⟨q, inQ, component⟩, cycle⟩ := (loops group).mp inGs
    have both : ∀ r ∈ group, g.toReactionCycles.Mutual p r := fun r inR =>
      ⟨((component p).mp inGroup).2.trans ((component r).mp inR).1,
        ((component r).mp inR).2.trans ((component p).mp inGroup).1⟩
    obtain long | ⟨r, rfl, edge⟩ := cycle
    · have once := ordered.nodup g.distinct
      obtain ⟨r, inR, other⟩ : ∃ r ∈ group, r ≠ p := by
        by_contra none
        push Not at none
        have short : group.Subperm [p] := once.subperm fun r inR => by simp [none r inR]
        have size := short.length_le
        rw [List.length_singleton] at size
        omega
      obtain ⟨there, back⟩ := both r inR
      obtain same | path := Relation.reflTransGen_iff_eq_or_transGen.mp there
      · exact absurd same other
      · exact path.trans_left back
    · cases List.mem_singleton.mp inGroup
      exact .single edge
  · intro cycle
    obtain ⟨q, edge, back⟩ := Relation.TransGen.head'_iff.mp cycle
    have inside : ∀ r, g.toReactionCycles.Mutual p r → r ∈ g.policies := fun r both =>
      Components.leads_within g.within mem both.1
    let group := g.policies.filter fun r => decide (g.toReactionCycles.Mutual p r)
    have inGroup : ∀ r, r ∈ group ↔ g.toReactionCycles.Mutual p r := by
      intro r
      simp only [group, List.mem_filter, decide_eq_true_eq]
      exact ⟨And.right, fun both => ⟨inside r both, both⟩⟩
    have self : p ∈ group := (inGroup p).mpr ⟨.refl, .refl⟩
    refine List.mem_flatten.mpr ⟨group, (loops group).mpr ⟨List.filter_sublist, ⟨p, self, inGroup⟩,
      ?_⟩, self⟩
    have next : q ∈ group := (inGroup q).mpr ⟨.single edge, back⟩
    by_cases long : 1 < group.length
    · exact Or.inl long
    · right
      obtain ⟨r, one⟩ := List.length_eq_one_iff.mp
        (show group.length = 1 by have := List.length_pos_of_mem self; omega)
      rw [one] at self next
      cases List.mem_singleton.mp self
      cases List.mem_singleton.mp next
      exact ⟨p, one, edge⟩

end

section

variable (snake : String → String) (b : Bluebook)

def reactionChains : ReactionChains (Node b) (Option Verb) where
  toReactionCycles := reactionCycles snake b
  dispatch := dispatch snake b

/-- The chain a verb's events start, searched by a walk over the bluebook's own loops. -/
theorem longest_from_verb {fuel : Nat} (deep : (reacting b).length ≤ fuel) :
    ∃ loops, cycles snake b fuel = some loops ∧ ∀ w,
      (reactionChains snake b).Searched loops.flatten fuel w → ∀ verb,
        ∃ chain w', (reactionChains snake b).longest loops.flatten fuel (reactingTo b verb) w =
          some (chain, w') ∧ ∃ ps, chain = ps.map (reactionStep snake b) ∧
            (reactionChains snake b).IsChain (reactingTo b verb) ps ∧
            (w'.capped = false → ∀ ps', (reactionChains snake b).IsChain (reactingTo b verb) ps' →
              ps'.length ≤ ps.length) := by
  obtain ⟨loops, ran, all⟩ := cycles_loops snake b deep
  refine ⟨loops, ran, fun w searched verb => ?_⟩
  have looping : (reactionChains snake b).Looping loops.flatten :=
    ReactionCycles.looping_of_loops all
  have enough : (reactionChains snake b).policies.length ≤ fuel := by
    show (List.finRange _).length ≤ fuel
    rw [List.length_finRange]
    exact deep
  obtain ⟨chain, w', found, -, answer⟩ := ReactionChains.longest_spec looping enough
    (fun p _ => List.mem_finRange p) (searched.remembers looping enough)
  exact ⟨chain, w', found, answer⟩

end

/-- Where a note on an order's line is priced and shipped. -/
theorem longest_in_shop : ∃ loops, cycles id shop 2 = some loops ∧ ∀ w,
    (reactionChains id shop).Searched loops.flatten 2 w → ∀ verb,
      ∃ chain w', (reactionChains id shop).longest loops.flatten 2 (reactingTo shop verb) w =
        some (chain, w') ∧ ∃ ps, chain = ps.map (reactionStep id shop) ∧
          (reactionChains id shop).IsChain (reactingTo shop verb) ps ∧
          (w'.capped = false → ∀ ps', (reactionChains id shop).IsChain (reactingTo shop verb) ps' →
            ps'.length ≤ ps.length) :=
  longest_from_verb id shop shop_reacts.le

end Hecks.ModelCheck
