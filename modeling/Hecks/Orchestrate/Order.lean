import Hecks.Orchestrate.Outcome

/-! The order of a cascade's events. A run is a tree of dispatch calls: a call, then for each
event of its batch the calls of the event's policies and the calls of its sagas. The events a run
leaves are the batches of that tree, parents first. -/
namespace Hecks

open Cascade

variable {S H : Type}

mutual

/-- One call of the dispatch function and everything its events set off. -/
inductive CallTree where
  | refused (depth : Nat) (verb : String) (args : Json) (refusal : Refusal)
  | accepted (depth : Nat) (verb : String) (args : Json) (batch : Settling)

/-- A batch in its emits order, each event with the calls of its policies and of its sagas. -/
inductive Settling where
  | done
  | settle (event : Event) (policies sagas : Calls) (rest : Settling)

/-- Calls one after the other. -/
inductive Calls where
  | nil
  | cons (tree : CallTree) (rest : Calls)

end

def Settling.batch : Settling → List Event
  | .done => []
  | .settle event _ _ rest => event :: rest.batch

mutual

/-- The events of a call: its own batch, then what the events of the batch caused. -/
def CallTree.events : CallTree → List Event
  | .refused .. => []
  | .accepted _ _ _ batch => batch.batch ++ batch.caused

/-- Event by event: what its policies caused, then what its sagas caused. -/
def Settling.caused : Settling → List Event
  | .done => []
  | .settle _ policies sagas rest => policies.events ++ (sagas.events ++ rest.caused)

def Calls.events : Calls → List Event
  | .nil => []
  | .cons tree rest => tree.events ++ rest.events

end

mutual

/-- The lines the tree leaves in a history. -/
def CallTree.marks : CallTree → List Mark
  | .refused depth verb args refusal => [.called depth verb args (.error refusal)]
  | .accepted depth verb args batch => .called depth verb args (.ok batch.batch) :: batch.marks

def Settling.marks : Settling → List Mark
  | .done => []
  | .settle event policies sagas rest =>
      .policiesOf event :: (policies.marks ++ .sagasOf event :: (sagas.marks ++
        .settled event :: rest.marks))

def Calls.marks : Calls → List Mark
  | .nil => []
  | .cons tree rest => tree.marks ++ rest.marks

end

def Calls.append : Calls → Calls → Calls
  | .nil, calls => calls
  | .cons tree rest, calls => .cons tree (rest.append calls)

@[simp] theorem Calls.marks_append (xs ys : Calls) :
    (xs.append ys).marks = xs.marks ++ ys.marks := by
  match xs with
  | .nil => rfl
  | .cons tree rest => simp only [append, marks, rest.marks_append, List.append_assoc]

@[simp] theorem Calls.events_append (xs ys : Calls) :
    (xs.append ys).events = xs.events ++ ys.events := by
  match xs with
  | .nil => rfl
  | .cons tree rest => simp only [append, events, rest.events_append, List.append_assoc]

/-- The events the dispatch function returned where the line says it was called. -/
def Mark.batch : Mark → List Event
  | .called _ _ _ (.ok batch) => batch
  | _ => []

mutual

/-- Every batch of every call is there once, in the order of the calls. -/
theorem CallTree.events_eq (tree : CallTree) : tree.events = tree.marks.flatMap Mark.batch := by
  cases tree with
  | refused => rfl
  | accepted depth verb args batch =>
      rw [CallTree.events, CallTree.marks, List.flatMap_cons, batch.caused_eq]
      rfl

theorem Settling.caused_eq (batch : Settling) :
    batch.caused = batch.marks.flatMap Mark.batch := by
  cases batch with
  | done => rfl
  | settle event policies sagas rest =>
      rw [Settling.caused, Settling.marks, policies.events_eq, sagas.events_eq, rest.caused_eq]
      simp only [List.flatMap_cons, List.flatMap_append, Mark.batch, List.nil_append]

theorem Calls.events_eq (calls : Calls) : calls.events = calls.marks.flatMap Mark.batch := by
  cases calls with
  | nil => rfl
  | cons tree rest =>
      rw [Calls.events, Calls.marks, List.flatMap_append, tree.events_eq, rest.events_eq]

end

/-- From `c` to `d` these lines of order were written and these events left. -/
structure Leaves (c : Cascade S H) (marks : List Mark) (events : List Event)
    (d : Cascade S H) : Prop where
  order : orderOf d.journal = orderOf c.journal ++ marks
  events : d.allEvents = c.allEvents ++ events

namespace Leaves

variable {c d e : Cascade S H} {ms ms' : List Mark} {es es' : List Event}

theorem trans (h : Leaves c ms es d) (h' : Leaves d ms' es' e) :
    Leaves c (ms ++ ms') (es ++ es') e :=
  ⟨by rw [h'.order, h.order, List.append_assoc], by rw [h'.events, h.events, List.append_assoc]⟩

theorem of_growsWithin (h : GrowsWithin c d) : Leaves c [] [] d :=
  ⟨by rw [h.sameOrder, List.append_nil], by rw [h.sameEvents, List.append_nil]⟩

theorem noted (c : Cascade S H) {m : Mark} (h : m.isOrder = true) :
    Leaves c [m] [] (c.noted m) :=
  ⟨by simp [Cascade.noted, orderOf, h], (List.append_nil _).symm⟩

end Leaves

/-- What the computation does, when it returns, is calls one after the other. -/
def InOrder {α : Type} (f : Job S H α) : Prop :=
  ∀ c a d, f c = (some a, d) → ∃ calls : Calls, Leaves c calls.marks calls.events d

theorem inOrder_of_quick {α : Type} {f : Job S H α} (hf : Quick f) : InOrder f := by
  intro c a d h
  obtain ⟨a', d', h', hg⟩ := hf c
  obtain ⟨-, rfl⟩ := Prod.mk.inj (h.symm.trans h')
  exact ⟨.nil, .of_growsWithin hg⟩

theorem InOrder.bind {α β : Type} {f : Job S H α} {g : α → Job S H β} (hf : InOrder f)
    (hg : ∀ a, InOrder (g a)) : InOrder (f >>= g) := by
  intro c b e h
  obtain ⟨a, d, hd, he⟩ := Act.bind_eq_some h
  obtain ⟨xs, hxs⟩ := hf c a d hd
  obtain ⟨ys, hys⟩ := hg a d b e he
  exact ⟨xs.append ys, by simpa using hxs.trans hys⟩

theorem congruence_inOrder : Congruence (S := S) (H := H) (Pairwise fun f _ => InOrder f) :=
  ⟨fun _ hf => inOrder_of_quick hf, InOrder.bind⟩

section Run

variable (env : Env S H) {self : RunFn S H}
  (hself : ∀ verb args role actor stamp depth, InOrder (self verb args role actor stamp depth))

include hself

theorem settleEvent_leaves {fuel depth : Nat} {event : Event} {c d : Cascade S H}
    (h : settleEvent env self fuel depth event c = (some (), d)) :
    ∃ policies sagas : Calls, Leaves c
      (.policiesOf event :: (policies.marks ++ .sagasOf event :: (sagas.marks ++
        [.settled event]))) (policies.events ++ sagas.events) d := by
  obtain ⟨_, _, ⟨⟩, h⟩ := Act.bind_eq_some h
  obtain ⟨_, c₁, h₁, h⟩ := Act.bind_eq_some h
  obtain ⟨_, _, ⟨⟩, h⟩ := Act.bind_eq_some h
  obtain ⟨_, c₂, h₂, h⟩ := Act.bind_eq_some h
  obtain ⟨_, c₃, h₃, h⟩ := Act.bind_eq_some h
  obtain ⟨_, c₄, h₄, ⟨⟩⟩ := Act.bind_eq_some h
  have hΨ : Congruence (S := S) (H := H) (Pairwise fun f _ => InOrder f) := congruence_inOrder
  have hreenter : ∀ verb args role actor stamp d, Reenters env.tables depth d →
      Pairwise (fun f _ => InOrder f) fun _ => self verb args role actor stamp d :=
    fun verb args role actor stamp d _ => hself verb args role actor stamp d
  have hdrain : ∀ leg, Pairwise (fun f _ => InOrder f) fun _ => drain self fuel leg depth :=
    hΨ.drain (fun _ _ _ _ h => nomatch h) env (fun _ => self) hreenter le_rfl
  have hreact : Pairwise (fun f _ => InOrder f) fun _ => reactPolicies env self event depth :=
    hΨ.reactPolicies env hreenter event
  have hbegin : Pairwise (fun f _ => InOrder f) fun _ => beginSaga env event :=
    hΨ.forEach fun pm _ => hΨ.quick _ (quick_beginOne env event pm)
  have hadvance : Pairwise (fun f _ => InOrder f) fun _ =>
      advanceSaga env self fuel event depth :=
    hΨ.forEach fun pm _ => hΨ.advanceOne env hreenter hdrain event pm
  have hend : Pairwise (fun f _ => InOrder f) fun _ => endSaga env event :=
    hΨ.forEach fun pm _ => hΨ.quick _ (quick_endOne env event pm)
  obtain ⟨policies, hpolicies⟩ := hreact _ _ _ h₁
  obtain ⟨xs, hxs⟩ := hbegin _ _ _ h₂
  obtain ⟨ys, hys⟩ := hadvance _ _ _ h₃
  obtain ⟨zs, hzs⟩ := hend _ _ _ h₄
  refine ⟨policies, xs.append (ys.append zs), ?_⟩
  have hall := (Leaves.noted c (m := .policiesOf event) rfl).trans (hpolicies.trans
    ((Leaves.noted c₁ (m := .sagasOf event) rfl).trans (hxs.trans (hys.trans (hzs.trans
      (Leaves.noted c₄ (m := .settled event) rfl))))))
  simpa using hall

theorem settleBatch_leaves {fuel depth : Nat} (events : List Event) {c d : Cascade S H}
    (h : Act.forEach events (settleEvent env self fuel depth) c = (some (), d)) :
    ∃ batch : Settling, batch.batch = events ∧ Leaves c batch.marks batch.caused d := by
  induction events generalizing c with
  | nil =>
      cases h
      exact ⟨.done, rfl, .of_growsWithin (.refl _)⟩
  | cons event events ih =>
      obtain ⟨_, c₁, h₁, h₂⟩ := Act.bind_eq_some h
      obtain ⟨policies, sagas, hevent⟩ := settleEvent_leaves env hself h₁
      obtain ⟨rest, hrest, hleaves⟩ := ih h₂
      refine ⟨.settle event policies sagas rest, congrArg (event :: ·) hrest, ?_⟩
      simpa [Settling.marks, Settling.caused] using hevent.trans hleaves

theorem runBody_leaves {fuel : Nat} {verb : String} {args : Json} {role actor : Option String}
    {stamp : Option (List (String × String))} {depth : Nat} {c d : Cascade S H}
    {r : Except Refusal Unit}
    (h : runBody env self fuel verb args role actor stamp depth c = (some r, d)) :
    ∃ tree : CallTree, tree.marks.head? =
        some (.called depth verb (enrichedArgs env verb args c)
          (stampedAnswer env verb args role actor stamp c)) ∧
      Leaves c tree.marks tree.events d := by
  obtain ⟨answer, c₁, h₁, h₂⟩ := Act.bind_eq_some h
  rw [callDispatch_eq] at h₁
  cases h₁
  have hcall : Leaves c [.called depth verb (enrichedArgs env verb args c)
        (stampedAnswer env verb args role actor stamp c)]
      ((stampedAnswer env verb args role actor stamp c).toOption.getD [])
      (afterCall env verb args role actor stamp depth c) :=
    ⟨List.filter_append .., afterCall_allEvents ..⟩
  cases hans : stampedAnswer env verb args role actor stamp c with
  | error refusal =>
      rw [hans] at h₂ hcall
      cases h₂
      exact ⟨.refused depth verb (enrichedArgs env verb args c) refusal, rfl, hcall⟩
  | ok events =>
      rw [hans] at h₂ hcall
      obtain ⟨_, c₂, h₂, ⟨⟩⟩ := Act.bind_eq_some h₂
      obtain ⟨batch, hbatch, hleaves⟩ := settleBatch_leaves env hself events h₂
      refine ⟨.accepted depth verb (enrichedArgs env verb args c) batch, ?_, ?_⟩
      · rw [CallTree.marks, hbatch]
        rfl
      · rw [CallTree.marks, CallTree.events, hbatch]
        exact hcall.trans hleaves

omit hself in
theorem inOrder_run (fuel : Nat) (verb : String) (args : Json) (role actor : Option String)
    (stamp : Option (List (String × String))) (depth : Nat) :
    InOrder (run env fuel verb args role actor stamp depth) := by
  induction fuel generalizing verb args role actor stamp depth with
  | zero => exact fun _ _ _ h => nomatch h
  | succ fuel ih =>
      intro c r d h
      obtain ⟨tree, -, hleaves⟩ := runBody_leaves env ih h
      exact ⟨.cons tree .nil, by simpa [Calls.marks, Calls.events] using hleaves⟩

end Run

/-- A returned run is a tree of calls under its own command. Its lines are the tree's, so every
call of the run is in it; its events are the tree's, each batch whole and in order, before what
its events caused, event by event, policies before sagas; and they are the batches of the calls,
each once. -/
theorem run_events_in_cascade_order (env : Env S H) {fuel : Nat} {verb : String} {args : Json}
    {role actor : Option String} {stamp : Option (List (String × String))} {depth : Nat}
    {c d : Cascade S H} {r : Except Refusal Unit}
    (h : run env fuel verb args role actor stamp depth c = (some r, d)) :
    ∃ tree : CallTree,
      tree.marks.head? = some (.called depth verb (enrichedArgs env verb args c)
        (stampedAnswer env verb args role actor stamp c)) ∧
      orderOf d.journal = orderOf c.journal ++ tree.marks ∧
      d.allEvents = c.allEvents ++ tree.events ∧
      tree.events = tree.marks.flatMap Mark.batch := by
  cases fuel with
  | zero => cases h
  | succ fuel =>
      obtain ⟨tree, hhead, hleaves⟩ := runBody_leaves env (inOrder_run env fuel) h
      exact ⟨tree, hhead, hleaves.order, hleaves.events, tree.events_eq⟩

/-- A sale is billed by a policy. -/
def saleEnv : Env Unit Unit :=
  let event := fun name => ⟨name, "Shop::Sale", "1", .null, none, none⟩
  let tables :=
    { Tables.ofManagers [] with
      policies := [⟨"Bill", "Sold", none, "Sale.Bill", none, none, none, false, []⟩] }
  Env.plain tables fun store verb _ _ _ mutations =>
    (.ok (if verb = "Sale.Sell" then [event "Sold", event "Packed"] else [event "Billed"]), store,
      mutations)

theorem sale_in_cascade_order :
    ∃ d, run saleEnv 3 "Sale.Sell" .null none none none 0 (.fresh ()) = (some (.ok ()), d) ∧
      d.allEvents.map (·.name) = ["Sold", "Packed", "Billed"] ∧
      ∃ tree : CallTree, orderOf d.journal = tree.marks ∧ d.allEvents = tree.events := by
  obtain ⟨d, hd, hnames⟩ : ∃ d, run saleEnv 3 "Sale.Sell" .null none none none 0 (.fresh ()) =
      (some (.ok ()), d) ∧ d.allEvents.map (·.name) = ["Sold", "Packed", "Billed"] :=
    ⟨_, rfl, rfl⟩
  obtain ⟨tree, -, horder, hevents, -⟩ := run_events_in_cascade_order saleEnv hd
  exact ⟨d, hd, hnames, tree, horder, hevents⟩

end Hecks
