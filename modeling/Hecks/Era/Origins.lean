import Hecks.Era.Compose
import Hecks.Lib.Reading

/-! The composed edge follows a record as the chain does, where no edge mistakes its way. -/
namespace Hecks.Era

open Hecks.Host (Serde)

namespace Compose

section

variable {held : String}

/-! ### The names edges have given -/

theorem track_isSome (origins : Hash String String) (aggregate : TranslationAggregate) :
    ((track origins aggregate).2.get held).isSome =
      takes held (origins.get held).isSome aggregate := by
  unfold track takes
  by_cases named : aggregate.name = held
  · subst named
    simp
  · rw [if_neg named, Hash.get_set_of_ne (Ne.symm named)]
    by_cases left : aggregate.previous = held
    · subst left
      simp
    · rw [if_neg left, Hash.get_delete_of_ne (Ne.symm left)]

theorem trackAggregate_cases {domain : String} {index : Nat} {state state' : Tracker}
    {aggregate : TranslationAggregate} (h : trackAggregate domain index state aggregate = .ok state') :
    state'.origins = (track state.origins aggregate).2 ∧ state'.retired = state.retired ∧
      ((unruled aggregate = true ∧ state'.ruled = state.ruled) ∨
        (state.ruled.get (track state.origins aggregate).1 = none ∧
          state'.ruled = state.ruled.set (track state.origins aggregate).1 (index, aggregate))) := by
  unfold trackAggregate at h
  by_cases none : unruled aggregate = true
  · simp only [none, if_true, Except.ok.injEq] at h
    subst h
    exact ⟨rfl, rfl, .inl ⟨none, rfl⟩⟩
  · simp only [none, Bool.false_eq_true, if_false] at h
    cases earlier : state.ruled.get (track state.origins aggregate).1 with
    | some earlier' => simp [earlier] at h
    | none =>
      simp only [earlier, Except.ok.injEq] at h
      subst h
      exact ⟨rfl, rfl, .inr ⟨rfl, rfl⟩⟩

theorem trackStep_cases {state state' : Tracker} {step : Translation} {index : Nat}
    (h : trackStep state step index = .ok state') :
    ∃ middle, step.aggregates.foldlM (trackAggregate step.domain index) state = .ok middle ∧
      state'.origins = middle.origins ∧ state'.ruled = middle.ruled ∧
      state'.retired = middle.retired ++ step.retired := by
  obtain ⟨middle, fold, rest⟩ := Reading.bind_eq_ok.mp h
  cases rest
  exact ⟨middle, fold, rfl, rfl, rfl⟩

variable (held) in
theorem aggregates_isSome {domain : String} {index : Nat} {aggregates : List TranslationAggregate} :
    ∀ {state state' : Tracker},
      aggregates.foldlM (trackAggregate domain index) state = .ok state' →
        (state'.origins.get held).isSome =
          aggregates.foldl (takes held) (state.origins.get held).isSome ∧
        state'.retired = state.retired := by
  induction aggregates with
  | nil =>
    intro state state' h
    cases h
    exact ⟨rfl, rfl⟩
  | cons aggregate aggregates ih =>
    intro state state' h
    rw [List.foldlM_cons] at h
    obtain ⟨middle, first, rest⟩ := Reading.bind_eq_ok.mp h
    obtain ⟨origins, retired, -⟩ := trackAggregate_cases first
    obtain ⟨named, kept⟩ := ih rest
    rw [List.foldl_cons, named, kept, retired, origins, track_isSome]
    exact ⟨rfl, rfl⟩

theorem takenAfter_cons (taken : Bool) (edge : Translation) (chain : List Translation) :
    takenAfter held taken (edge :: chain) =
      takenAfter held (edge.aggregates.foldl (takes held) taken) chain := by
  rw [takenAfter, takenAfter, List.flatMap_cons, List.foldl_append]

variable (held) in
/-- What is retired stays on the list, and a name is a key when edges have given it. -/
theorem steps_isSome {chain : List Translation} :
    ∀ {index : Nat} {state state' : Tracker}, trackSteps state index chain = .ok state' →
      (state'.origins.get held).isSome = takenAfter held (state.origins.get held).isSome chain ∧
        ∀ name ∈ state.retired, name ∈ state'.retired := by
  induction chain with
  | nil =>
    intro index state state' h
    cases h
    exact ⟨rfl, fun _ => id⟩
  | cons step chain ih =>
    intro index state state' h
    obtain ⟨next, first, rest⟩ := Reading.bind_eq_ok.mp h
    obtain ⟨middle, fold, origins, -, retired⟩ := trackStep_cases first
    obtain ⟨named, kept⟩ := aggregates_isSome held fold
    obtain ⟨final, grown⟩ := ih rest
    constructor
    · rw [final, origins, named, takenAfter_cons]
    · intro name h
      apply grown
      rw [retired, kept]
      exact List.mem_append_left _ h

/-! ### One aggregate -/

/-- The tracker has the record's way right. -/
structure Tracks (held : String) (trail : Trail) (state : Tracker) : Prop where
  name : trail.tracked = true → state.origins.get trail.name = some held
  only : ∀ name, state.origins.get name = some held → trail.tracked = true ∧ name = trail.name
  first : trail.tracked = false →
    trail.name = held ∧ state.origins.get held = none ∧ state.ruled.get held = none
  taken : trail.taken = (state.origins.get held).isSome

/-- The rules a record has been rewritten by. -/
def Tracker.rulesOf (state : Tracker) (held : String) : Option TranslationAggregate :=
  (state.ruled.get held).map (·.2)

/-- The aggregate that takes the record on: its origin is the record's first name. -/
theorem own_origin {trail : Trail} {state : Tracker} {aggregate : TranslationAggregate}
    (tracks : Tracks held trail state) (own : trail.Own aggregate) :
    (track state.origins aggregate).1 = held := by
  simp only [track, own.2]
  cases tracked : trail.tracked with
  | true => rw [tracks.name tracked, Option.getD_some]
  | false =>
    obtain ⟨name, free, -⟩ := tracks.first tracked
    rw [name, free, Option.getD_none]

/-- An aggregate that spares the record: its origin is another. -/
theorem spared_origin {trail : Trail} {state : Tracker} {aggregate : TranslationAggregate}
    (tracks : Tracks held trail state) (spared : trail.Spared held aggregate)
    (other : ¬ trail.Own aggregate) : (track state.origins aggregate).1 ≠ held := by
  obtain ⟨-, previous, fresh⟩ := spared other
  simp only [track]
  intro same
  cases known : state.origins.get aggregate.previous with
  | some origin =>
    rw [known, Option.getD_some] at same
    rw [same] at known
    exact previous (tracks.only _ known).2
  | none =>
    rw [known, Option.getD_none] at same
    have taken := fresh same
    rw [tracks.taken, ← same, known] at taken
    cases taken

theorem Tracks.meet {domain : String} {index : Nat} {trail : Trail} {state state' : Tracker}
    {aggregate : TranslationAggregate} (tracks : Tracks held trail state)
    (spared : trail.Spared held aggregate)
    (h : trackAggregate domain index state aggregate = .ok state') :
    Tracks held (trail.meet held aggregate) state' := by
  obtain ⟨origins, -, ruled⟩ := trackAggregate_cases h
  have taken : takes held trail.taken aggregate = (state'.origins.get held).isSome := by
    rw [origins, track_isSome, tracks.taken]
  by_cases own : trail.Own aggregate
  · have origin := own_origin tracks own
    have after : state'.origins = (state.origins.delete aggregate.previous).set aggregate.name held := by
      rw [origins, ← origin]
      rfl
    simp only [Trail.meet, if_pos own]
    constructor
    · intro _
      rw [after, Hash.get_set_self]
    · intro name h
      refine ⟨rfl, ?_⟩
      by_contra ne
      rw [after, Hash.get_set_of_ne ne] at h
      by_cases left : name = aggregate.previous
      · rw [left, Hash.get_delete_self] at h
        cases h
      · rw [Hash.get_delete_of_ne left] at h
        rw [own.2] at left
        exact left (tracks.only name h).2
    · intro h
      cases h
    · exact taken
  · have origin := spared_origin tracks spared own
    obtain ⟨name, previous, fresh⟩ := spared own
    have at_name : ∀ n, n ≠ aggregate.name → n ≠ aggregate.previous →
        state'.origins.get n = state.origins.get n := by
      intro n hn hp
      rw [origins]
      simp only [track]
      rw [Hash.get_set_of_ne hn, Hash.get_delete_of_ne hp]
    simp only [Trail.meet, if_neg own]
    constructor
    · intro tracked
      rw [at_name _ (Ne.symm name) (Ne.symm previous)]
      exact tracks.name tracked
    · intro n h
      by_cases hn : n = aggregate.name
      · rw [origins, hn] at h
        simp only [track, Hash.get_set_self, Option.some_inj] at h
        exact absurd h origin
      · by_cases hp : n = aggregate.previous
        · rw [origins] at h
          simp only [track] at h
          rw [Hash.get_set_of_ne hn, hp, Hash.get_delete_self] at h
          cases h
        · rw [at_name n hn hp] at h
          exact tracks.only n h
    · intro untracked
      obtain ⟨here, free, unruled⟩ := tracks.first untracked
      refine ⟨here, ?_, ?_⟩
      · rw [at_name held (here ▸ Ne.symm name) (here ▸ Ne.symm previous)]
        exact free
      · rcases ruled with ⟨-, same⟩ | ⟨-, set⟩
        · rw [same, unruled]
        · rw [set, Hash.get_set_of_ne (Ne.symm origin), unruled]
    · exact taken

/-! ### The rules a record meets -/

variable (inspect : Serde → String)

/-- The state after the rules of an aggregate, if there is one. -/
def applied (source : Option TranslationAggregate) (state : State) : Except Refusal State :=
  source.elim (.ok state) fun aggregate => Rewrite.rewrite inspect aggregate.rules state

theorem applied_unruled {aggregate : TranslationAggregate} (h : unruled aggregate = true)
    (state : State) : Rewrite.rewrite inspect aggregate.rules state = .ok state := by
  simp only [unruled, Bool.and_eq_true, List.isEmpty_iff] at h
  obtain ⟨⟨⟨⟨⟨⟨⟨⟨renames, moves⟩, converts⟩, drops⟩, -⟩, derives⟩, -⟩, backfills⟩, -⟩ := h
  simp [Rewrite.rewrite, Rewrite.applyDerives, Rewrite.applyRenames, Renaming.simultaneous,
    Renaming.carried, Renaming.deleteAll, Renaming.putAll, renames, moves, converts, drops, derives,
    backfills]
  rfl

/-- The aggregate of an edge that takes the record on. -/
def Trail.own (trail : Trail) (aggregates : List TranslationAggregate) :
    Option TranslationAggregate :=
  if trail.moved then none else aggregates.find? fun aggregate => aggregate.previous = trail.name

variable (held) in
theorem own_cons (trail : Trail) (aggregate : TranslationAggregate)
    (aggregates : List TranslationAggregate) :
    trail.own (aggregate :: aggregates) =
      if trail.Own aggregate then some aggregate
      else (trail.meet held aggregate).own aggregates := by
  cases moved : trail.moved with
  | true => simp [Trail.own, Trail.Own, Trail.meet, moved]
  | false =>
    by_cases own : aggregate.previous = trail.name <;>
      simp [Trail.own, Trail.Own, Trail.meet, moved, own]

theorem own_moved {trail : Trail} (moved : trail.moved = true)
    (aggregates : List TranslationAggregate) : trail.own aggregates = none := by
  simp [Trail.own, moved]

theorem rulesOf_meet {domain : String} {index : Nat} {trail : Trail} {state state' : Tracker}
    {aggregate : TranslationAggregate} (tracks : Tracks held trail state)
    (spared : trail.Spared held aggregate)
    (h : trackAggregate domain index state aggregate = .ok state') (stored : State) :
    applied inspect (state'.rulesOf held) stored =
      applied inspect (state.rulesOf held) stored >>= fun s =>
        if trail.Own aggregate then Rewrite.rewrite inspect aggregate.rules s else .ok s := by
  obtain ⟨-, -, ruled⟩ := trackAggregate_cases h
  by_cases own : trail.Own aggregate
  · have origin := own_origin tracks own
    rw [origin] at ruled
    simp only [if_pos own]
    rcases ruled with ⟨empty, same⟩ | ⟨fresh, set⟩
    · simp only [applied_unruled inspect empty, Tracker.rulesOf, same]
      exact (bind_pure _).symm
    · simp only [Tracker.rulesOf, set, fresh, Hash.get_set_self, Option.map_some, Option.map_none]
      rfl
  · have origin := spared_origin tracks spared own
    simp only [if_neg own]
    have same : state'.ruled.get held = state.ruled.get held := by
      rcases ruled with ⟨-, same⟩ | ⟨-, set⟩
      · rw [same]
      · rw [set, Hash.get_set_of_ne (Ne.symm origin)]
    simp only [Tracker.rulesOf, same]
    exact (bind_pure _).symm

/-- One edge: the tracker stays right, and the record meets the rules of the aggregate that takes
it on. -/
theorem Tracks.meetAll {domain : String} {index : Nat} {aggregates : List TranslationAggregate} :
    ∀ {trail : Trail} {state state' : Tracker}, Tracks held trail state →
      SparedAll held trail aggregates →
      aggregates.foldlM (trackAggregate domain index) state = .ok state' →
        Tracks held (trail.meetAll held aggregates) state' ∧
        (trail.meetAll held aggregates).name =
          (trail.own aggregates).elim trail.name (·.name) ∧
        ∀ stored, applied inspect (state'.rulesOf held) stored =
          applied inspect (state.rulesOf held) stored >>= fun s =>
            applied inspect (trail.own aggregates) s := by
  induction aggregates with
  | nil =>
    intro trail state state' tracks _ h
    cases h
    have none : trail.own [] = none := by simp [Trail.own]
    refine ⟨tracks, by rw [none]; rfl, fun stored => ?_⟩
    rw [none]
    exact (bind_pure _).symm
  | cons aggregate aggregates ih =>
    intro trail state state' tracks spared h
    rw [List.foldlM_cons] at h
    obtain ⟨middle, first, rest⟩ := Reading.bind_eq_ok.mp h
    obtain ⟨right, name, rules⟩ := ih (tracks.meet spared.1 first) spared.2 rest
    have step := rulesOf_meet inspect tracks spared.1 first
    refine ⟨right, ?_, fun stored => ?_⟩
    · change ((trail.meet held aggregate).meetAll held aggregates).name = _
      rw [name, own_cons held]
      by_cases own : trail.Own aggregate
      · have moved : (trail.meet held aggregate).moved = true := by simp [Trail.meet, own]
        rw [own_moved moved, if_pos own]
        simp [Trail.meet, own]
      · rw [if_neg own]
        simp [Trail.meet, own]
    · rw [rules, step, bind_assoc, own_cons held]
      congr 1
      funext s
      by_cases own : trail.Own aggregate
      · have moved : (trail.meet held aggregate).moved = true := by simp [Trail.meet, own]
        rw [own_moved moved, if_pos own, if_pos own]
        exact bind_pure _
      · rw [if_neg own, if_neg own]
        rfl

/-! ### The chain and the edge -/

theorem carry_own (edge : Translation) {trail : Trail} (unmoved : trail.moved = false)
    (kept : trail.name ∉ edge.retired) (state : State) :
    edge.carry inspect trail.name state =
      (applied inspect (trail.own edge.aggregates) state).map
        (.carried ((trail.own edge.aggregates).elim trail.name (·.name))) := by
  unfold Translation.carry Trail.own
  simp only [if_neg kept, unmoved, Bool.false_eq_true, if_false]
  cases edge.aggregates.find? fun aggregate => aggregate.previous = trail.name <;> rfl

theorem previous_composedAggregate (name origin : String) (source : Option TranslationAggregate) :
    (composedAggregate name origin source).previous = origin := by
  by_cases same : origin = name <;> simp [composedAggregate, TranslationAggregate.previous, same]

theorem rewrite_composedAggregate (name origin : String) (source : Option TranslationAggregate)
    (state : State) :
    Rewrite.rewrite inspect (composedAggregate name origin source).rules state =
      applied inspect source state := by
  cases source with
  | none => exact @applied_unruled inspect (composedAggregate name origin none) rfl state
  | some aggregate => rfl

/-- The composed edge carries the record to its name under its rules. -/
theorem carry_composed {trail : Trail} {state : Tracker} (tracks : Tracks held trail state)
    (standing : held ∈ state.retired → trail.taken = true) (domain source target : String)
    (stored : State) :
    (composed state domain source target).carry inspect held stored =
      (applied inspect (state.rulesOf held) stored).map (.carried trail.name) := by
  have kept : held ∉ (composed state domain source target).retired := by
    intro h
    simp only [composed, List.mem_filter, List.mem_eraseDups, Option.isNone_iff_eq_none] at h
    have taken := standing h.1
    rw [tracks.taken, h.2] at taken
    cases taken
  unfold Translation.carry
  rw [if_neg kept]
  cases found : (composed state domain source target).aggregates.find?
      fun aggregate => aggregate.previous = held with
  | some aggregate =>
    have previous := List.find?_some found
    obtain ⟨⟨name, origin⟩, entry, same⟩ := List.mem_filterMap.mp (List.mem_of_find?_eq_some found)
    simp only [Option.ite_none_left_eq_some, Option.some_inj] at same
    obtain ⟨-, rfl⟩ := same
    simp only [previous_composedAggregate, decide_eq_true_eq] at previous
    subst previous
    obtain ⟨-, rfl⟩ := tracks.only name (Hash.mem_entries.mp entry)
    simp only [rewrite_composedAggregate]
    rfl
  | none =>
    have absent := List.find?_eq_none.mp found
    have same : trail.name = held ∧ state.rulesOf held = none := by
      cases tracked : trail.tracked with
      | false =>
        obtain ⟨name, -, unruled⟩ := tracks.first tracked
        exact ⟨name, by simp [Tracker.rulesOf, unruled]⟩
      | true =>
        -- an entry that the composed edge leaves out changes nothing
        by_contra carried
        apply absent (composedAggregate trail.name held (state.rulesOf held))
        · apply List.mem_filterMap.mpr
          refine ⟨(trail.name, held), Hash.mem_entries.mpr (tracks.name tracked), ?_⟩
          apply if_neg
          intro left
          simp only [Bool.and_eq_true, Option.isNone_iff_eq_none, decide_eq_true_eq] at left
          exact carried ⟨left.2.symm, left.1⟩
        · simp [previous_composedAggregate]
    rw [same.1, same.2]
    rfl

theorem carry_retired {state : Tracker} (retired : held ∈ state.retired)
    (free : state.origins.get held = none) (domain source target : String) (stored : State) :
    (composed state domain source target).carry inspect held stored = .ok .retired := by
  unfold Translation.carry
  apply if_pos
  simp only [composed, List.mem_filter, List.mem_eraseDups, Option.isNone_iff_eq_none]
  exact ⟨retired, free⟩

theorem meetAll_taken (trail : Trail) (aggregates : List TranslationAggregate) :
    (trail.meetAll held aggregates).taken = aggregates.foldl (takes held) trail.taken := by
  induction aggregates generalizing trail with
  | nil => rfl
  | cons aggregate aggregates ih =>
    have taken : (trail.meet held aggregate).taken = takes held trail.taken aggregate := by
      unfold Trail.meet
      split <;> rfl
    rw [List.foldl_cons, ← taken, ← ih]
    rfl

/-- From any point of a chain on: what has been met so far, then the rest of the chain, is what the
composed edge makes of the stored record. -/
theorem carry_from (domain source target : String) {chain : List Translation} :
    ∀ {index : Nat} {trail : Trail} {state state' : Tracker}, Tracks held trail state →
      trail.moved = false → Followed held trail chain →
      trackSteps state index chain = .ok state' →
      (held ∈ state.retired → takenAfter held trail.taken chain = true) → ∀ stored,
        (applied inspect (state.rulesOf held) stored >>= carryAll inspect chain trail.name) =
          (composed state' domain source target).carry inspect held stored := by
  induction chain with
  | nil =>
    intro index trail state state' tracks _ _ h standing stored
    cases h
    rw [carry_composed inspect tracks standing domain source target]
    cases applied inspect (state.rulesOf held) stored <;> rfl
  | cons edge chain ih =>
    intro index trail state state' tracks unmoved followed h standing stored
    have final := steps_isSome held h
    obtain ⟨next, first, rest⟩ := Reading.bind_eq_ok.mp h
    obtain ⟨middle, fold, origins, ruled, retired⟩ := trackStep_cases first
    by_cases left : trail.name ∈ edge.retired
    · rw [Followed, if_pos left] at followed
      obtain ⟨untracked, untaken⟩ := followed
      obtain ⟨name, -, unruled⟩ := tracks.first untracked
      have listed : held ∈ state'.retired := by
        apply (steps_isSome held rest).2
        rw [retired, ← name]
        exact List.mem_append_right _ left
      have free : state'.origins.get held = none := by
        rw [← Option.isNone_iff_eq_none, ← Option.not_isSome, final.1, ← tracks.taken, untaken]
        rfl
      rw [carry_retired inspect listed free]
      simp [Tracker.rulesOf, unruled, applied, carryAll, Translation.carry, left]
      rfl
    · rw [Followed, if_neg left] at followed
      obtain ⟨spared, stands, followed⟩ := followed
      obtain ⟨right, name, rules⟩ := tracks.meetAll inspect spared fold
      have tracks' : Tracks held { trail.meetAll held edge.aggregates with moved := false } next := by
        obtain ⟨name, only, first, taken⟩ := right
        rw [← origins] at name only first taken
        rw [← ruled] at first
        exact ⟨name, only, first, taken⟩
      have standing' : held ∈ next.retired →
          takenAfter held (trail.meetAll held edge.aggregates).taken chain = true := by
        intro h
        rw [meetAll_taken, ← takenAfter_cons]
        rw [retired, (aggregates_isSome held fold).2] at h
        rcases List.mem_append.mp h with before | here
        · exact standing before
        · exact stands here
      have sameRules : next.rulesOf held = middle.rulesOf held := by
        simp only [Tracker.rulesOf, ruled]
      rw [← ih tracks' rfl followed rest standing', sameRules, rules, bind_assoc]
      congr 1
      funext s
      have carried := carry_own inspect edge unmoved left s
      simp only [carryAll, carried, name]
      cases applied inspect (trail.own edge.aggregates) s <;> rfl

/-- Every record that no edge mistakes is carried by the composed edge as by the chain. -/
theorem compose_agrees (domain source target : String) {chain : List Translation}
    {edge : Translation} (accepted : compose domain source target chain = .ok edge)
    (followed : Followed held ⟨held, false, false, false⟩ chain) (state : State) :
    edge.carry inspect held state = carryAll inspect chain held state := by
  obtain ⟨_, -, rest⟩ := Reading.bind_eq_ok.mp accepted
  obtain ⟨tracker, tracked, made⟩ := Reading.bind_eq_ok.mp rest
  cases made
  have start : Tracks held ⟨held, false, false, false⟩ ⟨.empty, [], .empty⟩ := by
    constructor
    · intro h
      cases h
    · intro name h
      cases h
    · exact fun _ => ⟨rfl, rfl, rfl⟩
    · rfl
  have none : held ∈ ([] : List String) →
      takenAfter held false chain = true := fun h => absurd h List.not_mem_nil
  exact (carry_from inspect domain source target start rfl followed tracked none state).symm

end

end Compose

/-- An aggregate of an edge with the renames given and no rule else. -/
def renamed (name : String) (was : Option String) (renames : List (String × String))
    (distinct : (renames.map Prod.fst).Nodup) : TranslationAggregate :=
  ⟨name, was, ⟨renames, [], [], [], [], [], distinct⟩, [], [], []⟩

theorem nothing_distinct : (([] : List (String × String)).map Prod.fst).Nodup := by decide

theorem cost_distinct : ([("cost", "amount")].map Prod.fst).Nodup := by decide

/-- A bill becomes an invoice, the invoice's cost its amount; then drafts are retired. -/
def billing : List Translation :=
  [⟨"Shop", "1", "2", [renamed "Invoice" (some "Bill") [] nothing_distinct], []⟩,
   ⟨"Shop", "2", "3", [renamed "Account" (some "Ledger") [] nothing_distinct,
      renamed "Invoice" none [("cost", "amount")] cost_distinct], []⟩,
   ⟨"Shop", "3", "4", [], ["Draft"]⟩]

def billingEdge : Translation :=
  ⟨"Shop", "1", "4", [renamed "Account" (some "Ledger") [] nothing_distinct,
    renamed "Invoice" (some "Bill") [("cost", "amount")] cost_distinct], ["Draft"]⟩

theorem billing_composes :
    billingEdge.carry (fun _ => "") "Bill" listing =
      carryAll (fun _ => "") billing "Bill" listing := by
  apply Compose.compose_agrees (fun _ => "") "Shop" "1" "4"
  · rfl
  · simp [billing, renamed, Compose.Followed, Compose.SparedAll, Compose.Trail.Spared,
      Compose.Trail.meetAll, Compose.Trail.meet, Compose.Trail.Own, TranslationAggregate.previous]

/-- Two aggregates exchange their names. -/
def crossing : Translation :=
  ⟨"Shop", "1", "2", [renamed "Order" (some "Quote") [] nothing_distinct,
    renamed "Quote" (some "Order") [] nothing_distinct], []⟩

theorem crossing_loses_origins :
    Compose.compose "Shop" "1" "2" [crossing] = .ok ⟨"Shop", "1", "2", [], []⟩ ∧
      (Translation.mk "Shop" "1" "2" [] []).carry (fun _ => "") "Order" listing ≠
        carryAll (fun _ => "") [crossing] "Order" listing := by
  have direct : (Translation.mk "Shop" "1" "2" [] []).carry (fun _ => "") "Order" listing =
      .ok (.carried "Order" listing) := rfl
  have chained : carryAll (fun _ => "") [crossing] "Order" listing =
      .ok (.carried "Quote" listing) := rfl
  refine ⟨rfl, ?_⟩
  rw [direct, chained]
  intro h
  simp at h

end Hecks.Era
