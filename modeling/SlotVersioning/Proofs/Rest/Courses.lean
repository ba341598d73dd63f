import SlotVersioning.Proofs.Rest.Keeping

/-!
# Courses at rest

A course rests when all its places rest with what reaches them (`Course.Rests`). Running it comes to
rest (`Course.run_rests`), it goes on resting while other sites are visited, and running it at rest
is idle and transfers the facts as before (`Course.run_idle`).
-/

namespace SlotVersioning

open RunM

/-- Every place of the course rests when `facts` enter the course. -/
def Course.Rests (config : Config) (state : RunState) : Course → Facts → Prop
  | free, _ | settled _, _ => True
  | stuck _, _ => False
  | visit place, facts => place.Rests config (place.reached facts) state
  | chain first rest, facts =>
      let before := first.transfer config state facts
      first.Rests config state facts ∧ rest.Rests config state (before.1 ∪ before.2)
  | test condition onTrue onFalse, facts =>
      let tested := condition.transfer config state facts
      condition.Rests config state facts ∧ onTrue.Rests config state tested.1 ∧
        onFalse.Rests config state tested.2

/-! ## While nothing is disturbed -/

/-- The places rest and transfer the facts as before. -/
private theorem Visit.Rests.transfer {config : Config} {place : Visit} {reaching : VersionSet}
    {before after : RunState} (rests : place.Rests config reaching before)
    (undisturbed : place.Undisturbed config before after) (facts : Facts) :
    place.transfer config after facts = place.transfer config before facts := by
  have written (target : VariableSite) (visits : place.site? = some target) :
      after.version target.expression = before.version target.expression :=
    undisturbed.version _ (List.mem_append_left _ (Visit.mem_written_of_site visits))
  cases place with
  | read target | define target | assign target _ | increment target =>
      exact congrArg (facts.pin target.slot) (written target rfl)
  | field expression =>
      by_cases versioned : config.has .fieldVersions = true
      · have named := rests.named expression List.mem_cons_self versioned
        rcases Option.isSome_iff_exists.1 named with ⟨slot, given⟩
        simp only [Visit.transfer, if_pos versioned, given,
          undisturbed.fields.fieldSlot expression slot given]
      · simp only [Visit.transfer, if_neg versioned]
  | clobber => rfl

namespace Course

variable {config : Config} {course : Course} {facts : Facts} {before after state final : RunState}

theorem Rests.undisturbed (rests : course.Rests config before facts)
    (undisturbed : ∀ place ∈ course.visits, place.Undisturbed config before after)
    (opened : before.tables.fields.isSome → config.has .fieldVersions = true) :
    course.Rests config after facts ∧
      course.transfer config after facts = course.transfer config before facts := by
  induction course generalizing facts with
  | free => exact ⟨trivial, rfl⟩
  | settled outcome => cases outcome <;> exact ⟨trivial, rfl⟩
  | stuck fault => exact rests.elim
  | visit place =>
      have alone := undisturbed place List.mem_cons_self
      have same := Visit.Rests.transfer rests alone facts
      exact ⟨Visit.Rests.undisturbed rests alone opened, congrArg₂ Prod.mk same same⟩
  | chain first rest firstInduction restInduction =>
      rw [visits, List.forall_mem_append] at undisturbed
      have start := firstInduction rests.1 undisturbed.1
      have goOn := restInduction rests.2 undisturbed.2
      refine ⟨⟨start.1, ?_⟩, ?_⟩
      · rw [start.2]
        exact goOn.1
      · simp only [transfer, start.2, goOn.2]
  | test condition onTrue onFalse conditionInduction trueInduction falseInduction =>
      rw [visits, List.forall_mem_append, List.forall_mem_append] at undisturbed
      have tests := conditionInduction rests.1 undisturbed.1
      have held := trueInduction rests.2.1 undisturbed.2.1
      have failed := falseInduction rests.2.2 undisturbed.2.2
      refine ⟨⟨tests.1, ?_, ?_⟩, ?_⟩
      · rw [tests.2]
        exact held.1
      · rw [tests.2]
        exact failed.1
      · simp only [transfer, tests.2, held.2, failed.2]

theorem Rests.exists_reaching (rests : course.Rests config state facts) {place : Visit}
    (member : place ∈ course.visits) : ∃ reaching, place.Rests config reaching state := by
  induction course generalizing facts with
  | free | settled => exact nomatch member
  | stuck => exact rests.elim
  | visit other =>
      obtain rfl := List.mem_singleton.1 member
      exact ⟨_, rests⟩
  | chain first rest firstInduction restInduction =>
      rcases List.mem_append.1 member with early | late
      · exact firstInduction rests.1 early
      · exact restInduction rests.2 late
  | test condition onTrue onFalse conditionInduction trueInduction falseInduction =>
      rcases List.mem_append.1 member with tested | arm
      · exact conditionInduction rests.1 tested
      · rcases List.mem_append.1 arm with held | failed
        · exact trueInduction rests.2.1 held
        · exact falseInduction rests.2.2 failed

/-- The fields that a resting course visits have slots. -/
private theorem Rests.named (rests : course.Rests config state facts) {expression : ExprId}
    (member : .field expression ∈ course.visits) (versioned : config.has .fieldVersions = true) :
    (state.fieldSlot? expression).isSome := by
  rcases rests.exists_reaching member with ⟨reaching, placeRests⟩
  exact placeRests.named expression List.mem_cons_self versioned

/-- The sites that a resting course visits have versions. -/
theorem Rests.versioned (rests : course.Rests config state facts) {place : Visit}
    (member : place ∈ course.visits) : Versioned state place := by
  rcases rests.exists_reaching member with ⟨reaching, placeRests⟩
  exact placeRests.versioned

/-! ## Running at rest -/

/-- The run of a course at rest is idle. -/
theorem run_idle {site : Site} (rests : course.Rests site.config state facts)
    (shaped : state.ShapedFor site.config)
    (opened : state.tables.fields.isSome → site.config.has .fieldVersions = true) :
    ∃ final, course.run site facts state = .ok (course.transfer site.config state facts) final ∧
      Idle site.live state final := by
  induction course generalizing facts state with
  | free => exact ⟨state, rfl, .refl _ _⟩
  | settled outcome => cases outcome <;> exact ⟨state, rfl, .refl _ _⟩
  | stuck fault => exact rests.elim
  | visit place =>
      rcases Visit.act_idle rests (fun target visits => Visit.reached_of_site facts visits) shaped
        with ⟨final, acts, idle⟩
      exact ⟨final, bind_eq acts, idle⟩
  | chain first rest firstInduction restInduction =>
      rcases firstInduction rests.1 shaped opened with ⟨middle, firstRun, idle⟩
      have later := rests.2.undisturbed (fun place _ => idle.undisturbed site.config place) opened
      rcases restInduction later.1 (idle.shapedFor shaped) (idle.books.fields ▸ opened) with
        ⟨final, restRun, laterIdle⟩
      refine ⟨final, ?_, idle.trans laterIdle⟩
      rw [run, bind_eq firstRun, restRun, later.2]
      rfl
  | test condition onTrue onFalse conditionInduction trueInduction falseInduction =>
      rcases conditionInduction rests.1 shaped opened with ⟨tested, conditionRun, idle⟩
      have onTrueRests :=
        rests.2.1.undisturbed (fun place _ => idle.undisturbed site.config place) opened
      rcases trueInduction onTrueRests.1 (idle.shapedFor shaped) (idle.books.fields ▸ opened) with
        ⟨held, trueRun, heldIdle⟩
      have throughout := idle.trans heldIdle
      have onFalseRests :=
        rests.2.2.undisturbed (fun place _ => throughout.undisturbed site.config place) opened
      rcases falseInduction onFalseRests.1 (throughout.shapedFor shaped)
        (throughout.books.fields ▸ opened) with ⟨final, falseRun, failedIdle⟩
      refine ⟨final, ?_, throughout.trans failedIdle⟩
      rw [run, bind_eq conditionRun, bind_eq trueRun, bind_eq falseRun, onTrueRests.2,
        onFalseRests.2]
      rfl

end Course

/-! ## Coming to rest -/

/-- What a part of a node's course needs when it begins after the visits seen before. -/
structure Primed (body : Body) (config : Config) (name : NodeId) (seen visits : List Visit)
    (facts : Facts) (state : RunState) : Prop where
  composed : Composed body config state
  admitted : state.Admitted facts
  inside : ∀ place ∈ visits, place ∈ (body.course name).visits
  recorded : state.tables.fields.isSome = config.has .fieldVersions
  prepared : Prepared seen visits
  once : ((seen ++ visits).flatMap Visit.written).Nodup
  named : ∀ expression, .field expression ∈ seen → config.has .fieldVersions = true →
    (state.fieldSlot? expression).isSome

theorem Visit.Undisturbed.trans {config : Config} {place : Visit} {before middle after : RunState}
    (first : place.Undisturbed config before middle)
    (second : place.Undisturbed config middle after) : place.Undisturbed config before after := by
  have written (target : VariableSite) (visits : place.site? = some target) :
      middle.version target.expression = before.version target.expression :=
    first.version _ (List.mem_append_left _ (Visit.mem_written_of_site visits))
  refine ⟨fun expression touches =>
    (second.version expression touches).trans (first.version expression touches),
    first.grows.trans second.grows, first.books.trans second.books,
    first.fields.trans second.fields, ?_, ?_⟩
  · intro usage target visits reaching gathers
    have gathered := first.gathers usage target visits reaching gathers
    rw [← written target visits] at gathered ⊢
    exact second.gathers usage target visits reaching gathered
  · intro target value assigns
    rw [← first.copied target value assigns, ← written target (assigns ▸ rfl)]
    exact second.copied target value assigns

section

variable {body : Body} {config : Config} {name : NodeId} {statement : StatementId} {live : Bool}
  {course : Course} {seen visits left right : List Visit} {facts : Facts}
  {result : Facts × Facts} {before after : RunState}

theorem Primed.first (ready : Primed body config name seen (left ++ right) facts before) :
    Primed body config name seen left facts before where
  composed := ready.composed
  admitted := ready.admitted
  inside := fun place member => ready.inside place (List.mem_append_left _ member)
  recorded := ready.recorded
  prepared := (prepared_append.1 ready.prepared).1
  once := by
    have once := ready.once
    rw [← List.append_assoc, List.flatMap_append] at once
    exact once.of_append_left
  named := ready.named

/-- What the visits touch was written by them or before. -/
private theorem Primed.touched (ready : Primed body config name seen visits facts before) :
    ∀ place ∈ visits, ∀ expression ∈ place.touched,
      expression ∈ (visits.reverse ++ seen).flatMap Visit.written := by
  intro place member expression touches
  have written := ready.prepared.touched_written member expression touches
  simp only [List.mem_flatMap, List.mem_append, List.mem_reverse] at written ⊢
  exact written.imp fun other known => ⟨known.1.symm, known.2⟩

variable (usedOnce : body.uses.Nodup)
  (ordinary : ∀ expression target, body.arena.site? expression = some target → 0 ≤ target.slot)
  (hosts : body.Hosts name statement)

include usedOnce ordinary hosts

/-- A run of a course disturbs no place whose sites it does not write. -/
theorem Course.run_undisturbed {other : NodeId} {place : Visit}
    (inside : ∀ actor ∈ course.visits, actor ∈ (body.course name).visits)
    (composed : Composed body config before) (admitted : before.Admitted facts)
    (run : course.run ({ config, body : Context }.site statement live) facts before =
      .ok result after)
    (member : place ∈ (body.course other).visits) (versioned : Versioned before place)
    (untouched : ∀ expression ∈ place.touched, expression ∉ course.sites) :
    place.Undisturbed config before after := by
  have upholds := upholds_composed config usedOnce ordinary
  have still (state : RunState) : place.Undisturbed config state state :=
    (Idle.refl live state).undisturbed config place
  induction course generalizing facts result before after with
  | free =>
      rcases pure_ok run with ⟨-, rfl⟩
      exact still _
  | settled outcome =>
      cases outcome <;>
      · rcases pure_ok run with ⟨-, rfl⟩
        exact still _
  | stuck fault => exact nomatch run
  | visit actor =>
      rcases Course.run_visit_ok run with ⟨brought, acts, -⟩
      refine composed.act_undisturbed ordinary admitted (inside actor List.mem_cons_self) acts
        usedOnce hosts member versioned fun expression touches written => ?_
      exact untouched expression touches (List.mem_flatMap.2 ⟨actor, List.mem_cons_self, written⟩)
  | chain first rest firstInduction restInduction =>
      simp only [Course.sites_chain, List.mem_append, not_or] at untouched
      rw [Course.visits, List.forall_mem_append] at inside
      rcases Course.run_chain_ok run with ⟨between, middle, firstRun, restRun⟩
      have begun := firstInduction inside.1 composed admitted firstRun versioned
        fun expression touches => (untouched expression touches).1
      have upheld := upholds.course hosts inside.1 composed admitted firstRun
      exact begun.trans <| restInduction inside.2 upheld.holds
        ((upholds.closed _).union _ _ upheld.onTrue upheld.onFalse) restRun
        (upheld.persists.marked place versioned) fun expression touches =>
          (untouched expression touches).2
  | test condition onTrue onFalse conditionInduction trueInduction falseInduction =>
      simp only [Course.sites_test, List.mem_append, not_or] at untouched
      rw [Course.visits, List.forall_mem_append, List.forall_mem_append] at inside
      rcases Course.run_test_ok run with
        ⟨tested, first, held, second, failed, conditionRun, trueRun, falseRun, -⟩
      have upheld := upholds.course hosts inside.1 composed admitted conditionRun
      have upheldTrue := upholds.course hosts inside.2.1 upheld.holds upheld.onTrue trueRun
      have begun := conditionInduction inside.1 composed admitted conditionRun versioned
        fun expression touches => (untouched expression touches).1
      have versionedFirst := upheld.persists.marked place versioned
      have going := trueInduction inside.2.1 upheld.holds upheld.onTrue trueRun versionedFirst
        fun expression touches => (untouched expression touches).2.1
      have ending := falseInduction inside.2.2 upheldTrue.holds
        (upheldTrue.persists.good _ upheld.onFalse) falseRun
        (upheldTrue.persists.marked place versionedFirst)
        fun expression touches => (untouched expression touches).2.2
      exact (begun.trans going).trans ending

/-- A part that was run rests, and gives the facts that it transfers. -/
structure Course.Rested (config : Config) (course : Course) (facts : Facts)
    (result : Facts × Facts) (state : RunState) : Prop where
  rests : course.Rests config state facts
  transfers : course.transfer config state facts = result

/-- Later parts leave an earlier one at rest. -/
private theorem Course.Rested.stays {earlier : Course} {entering : Facts} {left : Facts × Facts}
    (rested : earlier.Rested config entering left before)
    (ready : Primed body config name seen course.visits facts before)
    (known : ∀ place ∈ earlier.visits, ∀ expression ∈ place.touched,
      expression ∈ seen.flatMap Visit.written)
    (inside : ∀ place ∈ earlier.visits, place ∈ (body.course name).visits)
    (versioned : ∀ place ∈ earlier.visits, Versioned before place)
    (run : course.run ({ config, body : Context }.site statement live) facts before =
      .ok result after) :
    earlier.Rested config entering left after := by
  have undisturbed (place : Visit) (member : place ∈ earlier.visits) :
      place.Undisturbed config before after := by
    refine course.run_undisturbed usedOnce ordinary hosts ready.inside ready.composed ready.admitted run
      (inside place member) (versioned place member) fun expression touches => ?_
    have once := ready.once
    rw [List.flatMap_append] at once
    exact List.disjoint_of_nodup_append once (known place member expression touches)
  have kept := rested.rests.undisturbed undisturbed fun recorded => ready.recorded.symm.trans recorded
  exact ⟨kept.1, kept.2.trans rested.transfers⟩

/-- After the first part of a list of visits the others are ready, with any admitted facts. -/
private theorem Primed.next {first : Course} {entering : Facts}
    (ready : Primed body config name seen (first.visits ++ right) facts before)
    (run : first.run ({ config, body : Context }.site statement live) facts before =
      .ok result after) (rests : first.Rests config after facts) (admitted : after.Admitted entering) :
    Primed body config name (first.visits.reverse ++ seen) right entering after := by
  have upholds := upholds_composed config usedOnce ordinary
  refine ⟨(upholds.course hosts ready.first.inside ready.composed ready.admitted run).holds, admitted,
    fun place member => ready.inside place (List.mem_append_right _ member), ?_,
    (prepared_append.1 ready.prepared).2, ?_, fun expression member versioned => ?_⟩
  · exact (Course.run_keepsBooks run).fields.trans ready.recorded
  · refine (List.Perm.flatMap_right _ ?_).nodup_iff.1 ready.once
    rw [← List.append_assoc]
    exact (List.perm_append_comm.trans ((List.reverse_perm _).symm.append_right _)).append_right _
  · rcases List.mem_append.1 member with earlier | before
    · exact rests.named (List.mem_reverse.1 earlier) versioned
    · rcases Option.isSome_iff_exists.1 (ready.named expression before versioned) with ⟨slot, given⟩
      rw [(Course.run_keepsFields run).fieldSlot expression slot given]
      rfl

/-- What was run rests afterwards. -/
theorem Course.run_rests (ready : Primed body config name seen course.visits facts before)
    (run : course.run ({ config, body : Context }.site statement live) facts before =
      .ok result after) : course.Rested config facts result after := by
  have upholds := upholds_composed config usedOnce ordinary
  induction course generalizing seen facts result before after with
  | free =>
      rcases pure_ok run with ⟨rfl, rfl⟩
      exact ⟨trivial, rfl⟩
  | settled outcome =>
      cases outcome <;>
      · rcases pure_ok run with ⟨rfl, rfl⟩
        exact ⟨trivial, rfl⟩
  | stuck fault => exact nomatch run
  | visit place =>
      rcases Course.run_visit_ok run with ⟨brought, acts, rfl⟩
      have recorded (versioned : config.has .fieldVersions = true) :
          before.tables.fields.isSome := ready.recorded.trans versioned
      refine ⟨ready.composed.act_rests ordinary ready.admitted (ready.inside _ List.mem_cons_self)
        acts usedOnce hosts recorded fun expression needed => ready.named expression
          (ready.prepared.1 _ needed), ?_⟩
      have transfers := act_transfer acts recorded (fun _ _ => rfl) (.refl _)
      exact congrArg₂ Prod.mk transfers.symm transfers.symm
  | chain first rest firstInduction restInduction =>
      rcases Course.run_chain_ok run with ⟨between, middle, firstRun, restRun⟩
      have begun := firstInduction ready.first firstRun
      have upheld := upholds.course hosts ready.first.inside ready.composed ready.admitted firstRun
      have readyRest := ready.next usedOnce ordinary hosts firstRun begun.rests
        ((upholds.closed _).union _ _ upheld.onTrue upheld.onFalse)
      have ended := restInduction readyRest restRun
      have lasting := begun.stays usedOnce ordinary hosts readyRest ready.first.touched
        ready.first.inside upheld.visited restRun
      refine ⟨⟨lasting.rests, ?_⟩, ?_⟩
      · rw [lasting.transfers]
        exact ended.rests
      · rw [Course.transfer, lasting.transfers]
        exact ended.transfers
  | test condition onTrue onFalse conditionInduction trueInduction falseInduction =>
      rcases Course.run_test_ok run with
        ⟨tested, first, held, second, failed, conditionRun, trueRun, falseRun, rfl⟩
      have upheld := upholds.course hosts ready.first.inside ready.composed ready.admitted conditionRun
      have rested := conditionInduction ready.first conditionRun
      -- The arms are entered one after the other, each with the facts of its outcome.
      have readyArms := ready.next usedOnce ordinary hosts conditionRun rested.rests upheld.onTrue
      have upheldTrue := upholds.course hosts readyArms.first.inside readyArms.composed
        readyArms.admitted trueRun
      have restedTrue := trueInduction readyArms.first trueRun
      have readyFalse := readyArms.next usedOnce ordinary hosts trueRun restedTrue.rests
        (upheldTrue.persists.good _ upheld.onFalse)
      have restedFalse := falseInduction readyFalse falseRun
      have testedHeld := rested.stays usedOnce ordinary hosts readyArms.first ready.first.touched
        ready.first.inside upheld.visited trueRun
      have testedFailed := testedHeld.stays usedOnce ordinary hosts readyFalse
        (fun place member expression touches => by
          rw [List.flatMap_append]
          exact List.mem_append_right _ (ready.first.touched place member expression touches))
        ready.first.inside
        (fun place member => upheldTrue.persists.marked place (upheld.visited place member)) falseRun
      have heldFailed := restedTrue.stays usedOnce ordinary hosts readyFalse readyArms.first.touched
        readyArms.first.inside upheldTrue.visited falseRun
      refine ⟨⟨testedFailed.rests, ?_, ?_⟩, ?_⟩
      · rw [testedFailed.transfers]
        exact heldFailed.rests
      · rw [testedFailed.transfers]
        exact restedFalse.rests
      · simp only [Course.transfer, testedFailed.transfers, heldFailed.transfers,
          restedFalse.transfers]

end

end SlotVersioning
