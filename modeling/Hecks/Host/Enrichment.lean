import Hecks.Host.Preview

/-! What `enrich` makes of an invocation document: the caller's own facts and envelope as they
were, and behind them the missing facts that are answered or defaulted. -/
namespace Hecks.Host.Preview

variable {H : Type} (needs : Needs) (host : Host H) (occurredAt : Option String)

/-- What is answered when each of the needs is asked for in turn. -/
def answers : List Need → H → List (String × Json)
  | [], _ => []
  | need :: rest, w =>
      match needs.answer host need occurredAt w with
      | (some value, w) => (need.fact, value) :: answers rest w
      | (none, w) => answers rest w

/-- The needs of a command that the caller left out. -/
def missing (verb : String) (held : List (String × Json)) : List Need :=
  (neededBy needs verb).filter fun need => !holds held need.fact

/-- A host without an answer to a need has none whenever it is asked. -/
def Steady (host : Host H) : Prop :=
  ∀ ask, host.ask = some ask → ∀ need w w', (ask w need).1 = none → (ask w' need).1 = none

variable {needs host occurredAt}

theorem fill_eq (held : List (String × Json)) (wanted : List Need)
    (filled : List (String × Json)) (w : H) :
    (needs.fill host occurredAt held wanted filled w).1 =
      filled ++ answers needs host occurredAt
        (wanted.filter fun need => !holds held need.fact) w := by
  induction wanted generalizing filled w with
  | nil => simp [Hecks.Needs.fill, answers]
  | cons need rest ih =>
    rw [Hecks.Needs.fill]
    by_cases there : (held.any fun f => f.1 = need.fact) = true
    · have no : (!holds held need.fact) = false := by rw [holds, there, Bool.not_true]
      rw [if_pos there, ih, List.filter_cons_of_neg (by simp [no])]
    · have yes : (!holds held need.fact) = true := by
        rw [holds, Bool.eq_false_iff.mpr there, Bool.not_false]
      rw [if_neg there, List.filter_cons, if_pos yes, answers]
      cases answered : needs.answer host need occurredAt w with
      | mk value w' =>
        cases value with
        | none => exact ih filled w'
        | some value =>
          dsimp only
          rw [ih, List.append_assoc, List.singleton_append]

theorem answers_named {wanted : List Need} {w : H} {f : String × Json}
    (h : f ∈ answers needs host occurredAt wanted w) : ∃ need ∈ wanted, need.fact = f.1 := by
  induction wanted generalizing w with
  | nil => exact absurd h List.not_mem_nil
  | cons need rest ih =>
    rw [answers] at h
    cases answered : needs.answer host need occurredAt w with
    | mk value w' =>
      rw [answered] at h
      have later : f ∈ answers needs host occurredAt rest w' →
          ∃ other ∈ need :: rest, other.fact = f.1 := by
        intro mem
        obtain ⟨other, listed, named⟩ := ih mem
        exact ⟨other, List.mem_cons_of_mem need listed, named⟩
      cases value with
      | none => exact later h
      | some value =>
        dsimp only at h
        obtain rfl | mem := List.mem_cons.mp h
        · exact ⟨need, List.mem_cons_self, rfl⟩
        · exact later mem

/-- A need whose fact was not answered met a host without an answer. -/
theorem unanswered {wanted : List Need} {w : H} {need : Need} (mem : need ∈ wanted)
    (h : holds (answers needs host occurredAt wanted w) need.fact = false) :
    ∃ w, (needs.answer host need occurredAt w).1 = none := by
  induction wanted generalizing w with
  | nil => exact absurd mem List.not_mem_nil
  | cons first rest ih =>
    rw [answers] at h
    cases answered : needs.answer host first occurredAt w with
    | mk value w' =>
      rw [answered] at h
      cases value with
      | none =>
        dsimp only at h
        obtain rfl | mem := List.mem_cons.mp mem
        · exact ⟨w, by rw [answered]⟩
        · exact ih mem h
      | some value =>
        simp only [holds, List.any_cons, Bool.or_eq_false_iff, decide_eq_false_iff_not] at h
        obtain rfl | mem := List.mem_cons.mp mem
        · exact absurd rfl h.1
        · exact ih mem h.2

theorem answer_steady (steady : Steady host) {need : Need} {w : H}
    (h : (needs.answer host need occurredAt w).1 = none) (w' : H) :
    (needs.answer host need occurredAt w').1 = none := by
  unfold Hecks.Needs.answer at h ⊢
  by_cases clock : need.fact = "now" ∨ need.fact = "today"
  · rw [if_pos clock] at h
    cases h
  · rw [if_neg clock] at h ⊢
    cases asked : host.ask with
    | none => rfl
    | some ask =>
      rw [asked] at h
      exact steady ask asked need w w' h

theorem answers_nil {wanted : List Need}
    (h : ∀ need ∈ wanted, ∀ w, (needs.answer host need occurredAt w).1 = none) (w : H) :
    answers needs host occurredAt wanted w = [] := by
  induction wanted generalizing w with
  | nil => rfl
  | cons need rest ih =>
    rw [answers]
    have none := h need List.mem_cons_self w
    cases answered : needs.answer host need occurredAt w with
    | mk value w' =>
      rw [answered] at none
      cases none
      exact ih (fun other mem => h other (List.mem_cons_of_mem need mem)) w'

/-- The defaults go behind the facts, those of names the facts do not have. -/
theorem fillDefaults_spec (defaults facts : List (String × Json)) :
    ∃ added, Hecks.Needs.fillDefaults defaults facts = facts ++ added ∧
      ∀ name, (Json.object added).get name =
        if holds facts name then none else (Json.object defaults).get name := by
  induction defaults generalizing facts with
  | nil => exact ⟨[], by simp [Hecks.Needs.fillDefaults], fun name => by simp [Json.get]⟩
  | cons default rest ih =>
    obtain ⟨key, value⟩ := default
    rw [Hecks.Needs.fillDefaults]
    have first : ∀ name, (Json.object ((key, value) :: rest)).get name =
        if key = name then some value else (Json.object rest).get name := by
      intro name
      by_cases same : key = name <;> simp [Json.get, same]
    by_cases there : (facts.any fun f => f.1 = key) = true
    · rw [if_pos there]
      obtain ⟨added, eq, get⟩ := ih facts
      refine ⟨added, eq, ?_⟩
      intro name
      rw [get, first]
      by_cases held : holds facts name = true
      · rw [if_pos held, if_pos held]
      · have other : key ≠ name := by
          rintro rfl
          exact held there
        rw [if_neg held, if_neg held, if_neg other]
    · rw [if_neg there]
      obtain ⟨added, eq, get⟩ := ih (facts ++ [(key, value)])
      refine ⟨(key, value) :: added, by rw [eq, List.append_assoc, List.singleton_append], ?_⟩
      intro name
      have one : holds (facts ++ [(key, value)]) name = (holds facts name || decide (key = name)) := by
        simp [holds]
      have step : (Json.object ((key, value) :: added)).get name =
          if key = name then some value else (Json.object added).get name := by
        by_cases same : key = name <;> simp [Json.get, same]
      rw [step, get, first, one]
      by_cases same : key = name
      · subst same
        have absent : holds facts key = false := Bool.eq_false_iff.mpr there
        simp [absent]
      · simp [same]

/-- The facts of a document with everything that is answered or defaulted. -/
def enrichedFacts (needs : Needs) (host : Host H) (occurredAt : Option String) (verb : String)
    (held : List (String × Json)) (w : H) : List (String × Json) :=
  Hecks.Needs.fillDefaults (defaultsOf needs verb)
    (needs.fill host occurredAt held (neededBy needs verb) held w).1

/-- A document with other facts: under `with` when it carries them there, else its own. -/
def refilled (args : Json) (facts : List (String × Json)) : Json :=
  match args.get "with" with
  | some (.object _) => .object (replaced "with" (.object facts) args.pairs)
  | _ => .object facts

/-- The document carries its facts under `with`. -/
def Enveloped (args : Json) : Prop := ∃ facts, args.get "with" = some (.object facts)

variable {verb : String}

theorem holds_append (left right : List (String × Json)) (name : String) :
    holds (left ++ right) name = (holds left name || holds right name) :=
  List.any_append

theorem enrichedFacts_spec (held : List (String × Json)) (w : H) :
    ∃ added, enrichedFacts needs host occurredAt verb held w = held ++ added ∧
      ∀ name, (Json.object added).get name =
        if holds held name then none
        else ((Json.object (answers needs host occurredAt (missing needs verb held) w)).get name).or
          ((Json.object (defaultsOf needs verb)).get name) := by
  obtain ⟨more, eq, get⟩ := fillDefaults_spec (defaultsOf needs verb)
    (held ++ answers needs host occurredAt (missing needs verb held) w)
  refine ⟨answers needs host occurredAt (missing needs verb held) w ++ more, ?_, ?_⟩
  · rw [enrichedFacts, fill_eq, ← missing, eq, List.append_assoc]
  · intro name
    rw [get_append, get, holds_append]
    by_cases there : holds held name = true
    · have none : (Json.object (answers needs host occurredAt (missing needs verb held) w)).get
          name = none := by
        rw [← Option.isNone_iff_eq_none, ← Option.not_isSome, ← holds_iff_get,
          Bool.not_eq_true', holds, List.any_eq_false]
        intro f mem same
        obtain ⟨need, listed, named⟩ := answers_named mem
        have absent := (List.mem_filter.mp listed).2
        rw [named, of_decide_eq_true same, there] at absent
        cases absent
      rw [none, there, if_pos rfl, Bool.true_or, if_pos rfl, Option.none_or]
    · rw [if_neg there, Bool.eq_false_iff.mpr there, Bool.false_or, holds_iff_get]
      cases (Json.object (answers needs host occurredAt (missing needs verb held) w)).get name with
      | none => rfl
      | some value => rfl

theorem enrich_of_none {args : Json} (h : heldFacts args = none) (w : H) :
    (needs.enrich host verb args occurredAt w).1 = none := by
  unfold Hecks.Needs.enrich
  unfold heldFacts at h
  cases args with
  | object fields =>
    split at h
    · cases h
    · cases h
    · rename_i other
      exact absurd rfl (other fields)
  | _ => simp [Json.get]

theorem enrich_of_some {args : Json} {held : List (String × Json)}
    (h : heldFacts args = some held) (w : H) :
    (needs.enrich host verb args occurredAt w).1 =
      if (enrichedFacts needs host occurredAt verb held w).length = held.length then none
      else some (refilled args (enrichedFacts needs host occurredAt verb held w)) := by
  have filled : Hecks.Needs.fillDefaults (defaultsOf needs verb)
      (needs.fill host occurredAt held (neededBy needs verb) held w).1 =
        enrichedFacts needs host occurredAt verb held w := rfl
  have nothing : (neededBy needs verb).isEmpty ∧ (defaultsOf needs verb).isEmpty →
      enrichedFacts needs host occurredAt verb held w = held := by
    rintro ⟨no, none⟩
    rw [enrichedFacts, List.isEmpty_iff.mp no, List.isEmpty_iff.mp none]
    rfl
  unfold Hecks.Needs.enrich
  unfold heldFacts at h
  rw [← neededBy, ← defaultsOf]
  by_cases empty : (neededBy needs verb).isEmpty ∧ (defaultsOf needs verb).isEmpty
  · rw [if_pos empty, nothing empty, if_pos rfl]
  · rw [if_neg empty]
    unfold refilled
    cases args with
    | object fields =>
      cases found : (Json.object fields).get "with" with
      | none =>
        rw [found] at h
        cases h
        dsimp only
        rw [filled]
        split <;> rfl
      | some value =>
        rw [found] at h
        cases value with
        | object facts =>
          cases h
          dsimp only
          rw [filled]
          split <;> rfl
        | _ =>
          cases h
          dsimp only
          rw [filled]
          split <;> rfl
    | _ => simp [Json.get] at h

/-- What is there already is not filled in again. -/
theorem enrichedFacts_settled {held : List (String × Json)}
    (needed : ∀ need ∈ neededBy needs verb, holds held need.fact = true ∨
      ∀ w, (needs.answer host need occurredAt w).1 = none)
    (defaulted : ∀ default ∈ defaultsOf needs verb, holds held default.1 = true) (w : H) :
    enrichedFacts needs host occurredAt verb held w = held := by
  have silent : answers needs host occurredAt (missing needs verb held) w = [] := by
    refine answers_nil ?_ w
    intro need mem w'
    obtain ⟨listed, absent⟩ := List.mem_filter.mp mem
    obtain there | none := needed need listed
    · rw [there] at absent
      cases absent
    · exact none w'
  rw [enrichedFacts, fill_eq, ← missing, silent, List.append_nil]
  exact fillDefaults_of_holds _ defaulted

theorem enriched_settled (steady : Steady host) (held : List (String × Json)) (w w' : H) :
    enrichedFacts needs host occurredAt verb
        (enrichedFacts needs host occurredAt verb held w) w' =
      enrichedFacts needs host occurredAt verb held w := by
  obtain ⟨added, eq, get⟩ := @enrichedFacts_spec H needs host occurredAt verb held w
  have found : ∀ name, holds held name = false → holds added name =
      (((Json.object (answers needs host occurredAt (missing needs verb held) w)).get name).or
        ((Json.object (defaultsOf needs verb)).get name)).isSome := by
    intro name absent
    rw [holds_iff_get, get, if_neg (by rw [absent]; exact Bool.false_ne_true)]
  apply enrichedFacts_settled
  · intro need listed
    rw [eq, holds_append]
    by_cases there : holds held need.fact = true
    · exact .inl (by rw [there, Bool.true_or])
    · have absent := Bool.eq_false_iff.mpr there
      by_cases answered : holds (answers needs host occurredAt (missing needs verb held) w)
          need.fact = true
      · left
        rw [absent, Bool.false_or, found need.fact absent, Option.isSome_or, ← holds_iff_get,
          answered, Bool.true_or]
      · right
        have asked : need ∈ missing needs verb held := by
          refine List.mem_filter.mpr ⟨listed, ?_⟩
          rw [absent, Bool.not_false]
        obtain ⟨there, none⟩ := unanswered asked (Bool.eq_false_iff.mpr answered)
        exact answer_steady steady none
  · intro default listed
    rw [eq, holds_append]
    by_cases there : holds held default.1 = true
    · rw [there, Bool.true_or]
    · have absent := Bool.eq_false_iff.mpr there
      have named : holds (defaultsOf needs verb) default.1 = true :=
        List.any_eq_true.mpr ⟨default, listed, decide_eq_true rfl⟩
      rw [absent, Bool.false_or, found default.1 absent, Option.isSome_or, ← holds_iff_get,
        ← holds_iff_get, named, Bool.or_true]

theorem heldFacts_enveloped {args : Json} {facts : List (String × Json)}
    (h : args.get "with" = some (.object facts)) : heldFacts args = some facts := by
  unfold heldFacts
  rw [h]

theorem enrich_enveloped {fields held : List (String × Json)}
    (h : (Json.object fields).get "with" = some (.object held)) (w : H) :
    let doc := (needs.enrich host verb (.object fields) occurredAt w).1.getD (.object fields)
    doc.get "with" = some (.object (enrichedFacts needs host occurredAt verb held w)) ∧
      (∀ key, key ≠ "with" → doc.get key = (Json.object fields).get key) ∧
      doc.pairs.map Prod.fst = fields.map Prod.fst := by
  intro doc
  obtain ⟨added, eq, -⟩ := @enrichedFacts_spec H needs host occurredAt verb held w
  have made : (needs.enrich host verb (.object fields) occurredAt w).1 = _ :=
    enrich_of_some (heldFacts_enveloped h) w
  by_cases same : (enrichedFacts needs host occurredAt verb held w).length = held.length
  · rw [if_pos same] at made
    have kept : doc = .object fields := by
      simp only [doc, made, Option.getD_none]
    have nothing : enrichedFacts needs host occurredAt verb held w = held := by
      rw [eq, List.length_append] at same
      rw [eq, List.eq_nil_of_length_eq_zero (show added.length = 0 by omega), List.append_nil]
    rw [kept, nothing]
    exact ⟨h, fun _ _ => rfl, rfl⟩
  · rw [if_neg same, refilled, h] at made
    have kept : doc = .object (replaced "with"
        (.object (enrichedFacts needs host occurredAt verb held w)) fields) := by
      simp only [doc, made, Option.getD_some, Json.pairs]
    rw [kept]
    exact ⟨get_replaced h _, fun key other => get_replaced_of_ne other _ _, keys_replaced _ _ _⟩

theorem enrich_flat {fields : List (String × Json)} (h : ¬ Enveloped (.object fields)) (w : H) :
    (needs.enrich host verb (.object fields) occurredAt w).1.getD (.object fields) =
      .object (enrichedFacts needs host occurredAt verb fields w) := by
  obtain ⟨added, eq, -⟩ := @enrichedFacts_spec H needs host occurredAt verb fields w
  have flat : heldFacts (.object fields) = some fields :=
    heldFacts_flat fun facts found => h ⟨facts, found⟩
  rw [enrich_of_some flat w]
  by_cases same : (enrichedFacts needs host occurredAt verb fields w).length = fields.length
  · rw [if_pos same, Option.getD_none]
    rw [eq, List.length_append] at same
    rw [eq, List.eq_nil_of_length_eq_zero (show added.length = 0 by omega), List.append_nil]
  · rw [if_neg same, Option.getD_some]
    unfold refilled
    split
    · rename_i facts found
      exact absurd ⟨facts, found⟩ h
    · rfl

/-- A document that holds what its facts would be filled to is left as it is. -/
theorem enrich_settled (steady : Steady host) {doc : Json} {held : List (String × Json)} {w : H}
    (h : heldFacts doc = some (enrichedFacts needs host occurredAt verb held w)) (w' : H) :
    (needs.enrich host verb doc occurredAt w').1 = none := by
  rw [enrich_of_some h, enriched_settled steady, if_pos rfl]

/-- `enrich` keeps the facts and the envelope of a document as they are and adds the missing
needed facts the clock or the host answers, the missing defaults of the names left, and nothing
else. Read as the document it was, the result is not filled again, unless a host without an answer
has one the second time. -/
theorem enrich_exact (needs : Needs) (host : Host H) (steady : Steady host) (verb : String)
    (args : Json) (occurredAt : Option String) (w : H) :
    let doc := (needs.enrich host verb args occurredAt w).1.getD args
    (heldFacts args = none → doc = args) ∧
    (∀ held, heldFacts args = some held → ∃ added,
      (∀ name, (Json.object added).get name =
        if holds held name then none
        else ((Json.object (answers needs host occurredAt (missing needs verb held) w)).get name).or
          ((Json.object (defaultsOf needs verb)).get name)) ∧
      (Enveloped args → doc.get "with" = some (.object (held ++ added)) ∧
        (∀ key, key ≠ "with" → doc.get key = args.get key) ∧
        doc.pairs.map Prod.fst = args.pairs.map Prod.fst) ∧
      (¬ Enveloped args → doc = .object (held ++ added))) ∧
    ((Enveloped doc → Enveloped args) →
      ∀ w', (needs.enrich host verb doc occurredAt w').1 = none) := by
  intro doc
  cases found : heldFacts args with
  | none =>
    have same : doc = args := by
      simp only [doc, enrich_of_none found, Option.getD_none]
    refine ⟨fun _ => same, ?_, ?_⟩
    · intro held some'
      cases some'
    · intro _ w'
      rw [same]
      exact enrich_of_none found w'
  | some held =>
    obtain ⟨fields, rfl⟩ : ∃ fields, args = .object fields := by
      cases args with
      | object fields => exact ⟨fields, rfl⟩
      | _ => simp [heldFacts, Json.get] at found
    obtain ⟨added, eq, get⟩ := @enrichedFacts_spec H needs host occurredAt verb held w
    by_cases enveloped : Enveloped (.object fields)
    · obtain ⟨facts, carried⟩ := enveloped
      obtain rfl : facts = held := by
        rw [heldFacts_enveloped carried] at found
        exact Option.some.inj found
      have spec := @enrich_enveloped H needs host occurredAt verb fields facts carried w
      refine ⟨by simp, ?_, ?_⟩
      · rintro _ ⟨⟩
        refine ⟨added, get, ?_, fun flat => absurd ⟨facts, carried⟩ flat⟩
        intro _
        rw [← eq]
        exact spec
      · intro _ w'
        exact enrich_settled steady (heldFacts_enveloped spec.1) w'
    · obtain rfl : fields = held := by
        rw [heldFacts_flat fun facts carried => enveloped ⟨facts, carried⟩] at found
        exact Option.some.inj found
      have spec : doc = .object (enrichedFacts needs host occurredAt verb fields w) :=
        enrich_flat enveloped w
      refine ⟨by simp, ?_, ?_⟩
      · rintro _ ⟨⟩
        refine ⟨added, get, fun carried => absurd carried enveloped, ?_⟩
        intro _
        rw [← eq]
        exact spec
      · intro same w'
        have flat : ¬ Enveloped doc := fun carried => enveloped (same carried)
        rw [spec] at flat
        rw [spec]
        exact enrich_settled steady
          (heldFacts_flat fun facts carried => flat ⟨facts, carried⟩) w'

/-- A host that answers nothing. -/
def silentHost : Host Unit := ⟨fun w => (0, w), none⟩

/-- A needed fact nobody answers is left out; and a default named `with` that is an object turns a
flat document into one that is read under `with`, which is filled once more. -/
theorem unanswered_and_nested :
    (Hecks.Needs.enrich ⟨[("A.Do", [⟨"rate", "Rate"⟩])], [], none⟩ silentHost "A.Do" (.object [])
      none ()).1 = none ∧
    (Hecks.Needs.enrich ⟨[], [("A.Do", [("with", .object []), ("runs", .bool true)])], none⟩
      silentHost "A.Do" (.object []) none ()).1 =
        some (.object [("with", .object []), ("runs", .bool true)]) ∧
    (Hecks.Needs.enrich ⟨[], [("A.Do", [("with", .object []), ("runs", .bool true)])], none⟩
      silentHost "A.Do" (.object [("with", .object []), ("runs", .bool true)]) none ()).1 =
        some (.object [("with", .object [("with", .object []), ("runs", .bool true)]),
          ("runs", .bool true)]) :=
  ⟨rfl, rfl, rfl⟩

/-- A clock's answer and a default under `with`, filled once. -/
theorem enrich_once :
    (Hecks.Needs.enrich ⟨[("A.Do", [⟨"now", "Integer"⟩])], [("A.Do", [("runs", .bool true)])],
      some 5⟩ silentHost "A.Do" ((Hecks.Needs.enrich ⟨[("A.Do", [⟨"now", "Integer"⟩])],
        [("A.Do", [("runs", .bool true)])], some 5⟩ silentHost "A.Do"
          (.object [("with", .object [])]) none ()).1.getD (.object [("with", .object [])]))
      none ()).1 = none :=
  (enrich_exact ⟨[("A.Do", [⟨"now", "Integer"⟩])], [("A.Do", [("runs", .bool true)])], some 5⟩
    silentHost (by intro ask found; cases found) "A.Do" (.object [("with", .object [])]) none
    ()).2.2 (fun _ => ⟨[], rfl⟩) ()

end Hecks.Host.Preview
