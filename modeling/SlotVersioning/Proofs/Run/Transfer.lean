import SlotVersioning.Proofs.Facts.Order
import SlotVersioning.Proofs.Run.Naming

/-!
# Transfer

What a course makes of the facts that enter it depends on the names that were given at its places and
on nothing else: `Course.transfer` computes it from them, for all facts, those of fields included. The
more enters a course, the more leaves it, slot by slot (`Course.transfer_subsetAt`).

It can be computed from the names of a later state, if they are still the same. With usage versions
names are always kept (`Course.run_transfer`), also when a place is visited twice. Otherwise they are
kept at the sites of a course that visits no site twice, until it is visited again
(`Course.run_transfer_of_nodup`).
-/

namespace SlotVersioning

/-- What a visit makes of facts, under the names that a state gives. -/
def Visit.transfer (config : Config) (names : RunState) : Visit → Facts → Facts
  | read target, facts | define target, facts | assign target _, facts
  | increment target, facts => facts.pin target.slot (names.version target.expression)
  | field expression, facts =>
      if config.has .fieldVersions then facts.pin ((names.fieldSlot? expression).getD 0) 1
      else facts
  | clobber, facts => if config.has .fieldVersions then facts.withoutFields else facts

/-- What a course makes of facts where it ends true, and where it ends false. -/
def Course.transfer (config : Config) (names : RunState) : Course → Facts → Facts × Facts
  | free, facts => (facts, facts)
  | settled true, facts => (facts, ∅)
  | settled false, facts => (∅, facts)
  | stuck _, _ => (∅, ∅)
  | visit place, facts => (place.transfer config names facts, place.transfer config names facts)
  | chain first rest, facts =>
      let before := first.transfer config names facts
      rest.transfer config names (before.1 ∪ before.2)
  | test condition onTrue onFalse, facts =>
      let tested := condition.transfer config names facts
      let left := onTrue.transfer config names tested.1
      let right := onFalse.transfer config names tested.2
      (left.1 ∪ right.1, left.2 ∪ right.2)

/-! ## More in, more out -/

section Growth

open Facts

variable {config : Config} {names : RunState} {slot : Slot} {version : Version}
  {fewer more : Facts}

private theorem Visit.transfer_subsetAt (place : Visit)
    (subset : fewer.SubsetAt slot version more) :
    (place.transfer config names fewer).SubsetAt slot version
      (place.transfer config names more) := by
  cases place with
  | read target | define target | assign target value | increment target =>
      exact pin_subsetAt_pin subset _ _
  | field expression =>
      simp only [transfer]
      split
      · exact pin_subsetAt_pin subset _ _
      · exact subset
  | clobber =>
      simp only [transfer]
      split
      · exact withoutFields_subsetAt_withoutFields subset
      · exact subset

/-- A version that reaches a slot in what leaves a course does so because of the versions that
reach the slot in what enters. -/
theorem Course.transfer_subsetAt (course : Course) (subset : fewer.SubsetAt slot version more) :
    (course.transfer config names fewer).1.SubsetAt slot version
        (course.transfer config names more).1 ∧
      (course.transfer config names fewer).2.SubsetAt slot version
        (course.transfer config names more).2 := by
  induction course generalizing fewer more with
  | free => exact ⟨subset, subset⟩
  | settled outcome =>
      cases outcome with
      | true => exact ⟨subset, fun member => member⟩
      | false => exact ⟨fun member => member, subset⟩
  | stuck => exact ⟨fun member => member, fun member => member⟩
  | visit place => exact ⟨place.transfer_subsetAt subset, place.transfer_subsetAt subset⟩
  | chain first rest firstInduction restInduction =>
      have before := firstInduction subset
      exact restInduction (union_subsetAt_union before.1 before.2)
  | test condition onTrue onFalse conditionInduction trueInduction falseInduction =>
      have tested := conditionInduction subset
      have left := trueInduction tested.1
      have right := falseInduction tested.2
      exact ⟨union_subsetAt_union left.1 right.1, union_subsetAt_union left.2 right.2⟩

end Growth

/-! ## Runs transfer -/

namespace RunM

variable {site : Site} {place : Visit} {facts result : Facts} {state final later : RunState}

/-- A visit of a site makes its version the only one of its slot, in all facts. -/
theorem act_pins {target : VariableSite} (run : place.act site facts state = .ok result final)
    (visits : place.site? = some target) :
    result = facts.pin target.slot (final.version target.expression) := by
  have reads {picked : Facts} {middle : RunState}
      (reading : read site target facts state = .ok picked middle) :
      picked = facts.pin target.slot (middle.version target.expression) := by
    apply Facts.ext
    intro slot
    rw [(read_ok reading).reaching slot, Facts.reaching_pin]
    simp only [eq_comm]
  cases act_ok run with
  | read reading =>
      cases visits
      exact reads reading
  | define definition =>
      cases visits
      exact (define_ok definition).pins
  | assign definition copy =>
      cases visits
      rw [(quietly_recordCopy _ _ _ _ _ copy).version]
      exact (define_ok definition).pins
  | increment reading increases =>
      cases visits
      rcases incrementVariable_ok increases with ⟨quiet, rfl | rfl⟩
      · rw [quiet.version]
        exact reads reading
      · rw [quiet.version, reads reading, Facts.pin_pin]
  | field | unversionedField | clobber => exact nomatch visits

/-- A visit transfers facts, under the names that are given then or later. -/
theorem act_transfer (run : place.act site facts state = .ok result final)
    (recorded : site.config.has .fieldVersions = true → state.tables.fields.isSome)
    (kept : ∀ target, place.site? = some target →
      later.version target.expression = final.version target.expression)
    (keeps : KeepsFields final later) : result = place.transfer site.config later facts := by
  have pins {target : VariableSite} (visits : place.site? = some target) :
      result = facts.pin target.slot (later.version target.expression) := by
    rw [kept target visits]
    exact act_pins run visits
  cases place with
  | read target | define target | assign target value | increment target => exact pins rfl
  | field expression =>
      simp only [Visit.act] at run
      by_cases versioned : site.config.has .fieldVersions = true
      · rw [if_pos versioned] at run
        rcases bind_ok run with ⟨slot, middle, request, run⟩
        rcases pure_ok run with ⟨rfl, rfl⟩
        have given := slotOfField_given request (recorded versioned)
        rw [Visit.transfer, if_pos versioned, keeps.fieldSlot expression slot given,
          Option.getD_some]
      · rw [if_neg versioned] at run
        rcases pure_ok run with ⟨rfl, rfl⟩
        rw [Visit.transfer, if_neg versioned]
  | clobber =>
      rcases pure_ok run with ⟨rfl, rfl⟩
      rfl

end RunM

namespace Course

variable {site : Site} {course : Course} {facts : Facts} {result : Facts × Facts}
  {state final later : RunState}

/-- No versions are written but at the sites of the course. -/
theorem run_frame (run : course.run site facts state = .ok result final) :
    Frame course.sites state final := by
  induction course generalizing facts result state final with
  | free =>
      rcases RunM.pure_ok run with ⟨-, rfl⟩
      exact .refl _
  | settled outcome =>
      cases outcome <;> obtain ⟨-, rfl⟩ := RunM.pure_ok run <;> exact .refl _
  | stuck fault => cases run
  | visit place =>
      rcases run_visit_ok run with ⟨carried, visited, -⟩
      have frame := RunM.act_frame visited
      rw [← List.append_nil place.written] at frame
      exact frame
  | chain first rest firstInduction restInduction =>
      rcases run_chain_ok run with ⟨between, middle, firstRun, run⟩
      rw [sites_chain]
      exact (firstInduction firstRun).trans (restInduction run)
  | test condition onTrue onFalse conditionInduction trueInduction falseInduction =>
      rcases run_test_ok run with
        ⟨tested, second, left, third, right, conditionRun, trueRun, falseRun, -⟩
      rw [sites_test]
      exact (conditionInduction conditionRun).trans
        ((trueInduction trueRun).trans (falseInduction falseRun))

/-- What every visit keeps, a course keeps. -/
theorem run_related {related : RunState → RunState → Prop} (refl : ∀ state, related state state)
    (trans : ∀ {first second third}, related first second → related second third →
      related first third)
    (acts : ∀ (place : Visit) (facts result : Facts) (state final : RunState),
      place.act site facts state = .ok result final → related state final)
    (run : course.run site facts state = .ok result final) : related state final := by
  induction course generalizing facts result state final with
  | free =>
      rcases RunM.pure_ok run with ⟨-, rfl⟩
      exact refl _
  | settled outcome =>
      cases outcome <;> obtain ⟨-, rfl⟩ := RunM.pure_ok run <;> exact refl _
  | stuck fault => cases run
  | visit place =>
      rcases run_visit_ok run with ⟨carried, visited, -⟩
      exact acts _ _ _ _ _ visited
  | chain first rest firstInduction restInduction =>
      rcases run_chain_ok run with ⟨between, middle, firstRun, run⟩
      exact trans (firstInduction firstRun) (restInduction run)
  | test condition onTrue onFalse conditionInduction trueInduction falseInduction =>
      rcases run_test_ok run with
        ⟨tested, second, left, third, right, conditionRun, trueRun, falseRun, -⟩
      exact trans (trans (conditionInduction conditionRun) (trueInduction trueRun))
        (falseInduction falseRun)

theorem run_keepsFields (run : course.run site facts state = .ok result final) :
    KeepsFields state final :=
  run_related .refl .trans (fun _ _ _ _ _ acts => RunM.act_keepsFields acts) run

theorem run_keeps (run : course.run site facts state = .ok result final)
    (usage : site.config.has .usageVersions = true) : Keeps state final :=
  run_related .refl .trans (fun _ _ _ _ _ acts => RunM.act_keeps acts usage) run

/-! ## Names at the sites of a course -/

/-- The versions written at the sites are the same later, and field slots are kept. -/
structure KeepsAt (sites : List ExprId) (before later : RunState) : Prop
    extends KeepsFields before later where
  version : ∀ expression ∈ sites, later.version expression = before.version expression

theorem KeepsAt.of_run {sites : List ExprId} (keeps : KeepsAt sites final later)
    (run : course.run site facts state = .ok result final)
    (apart : ∀ expression ∈ sites, expression ∉ course.sites) :
    KeepsAt sites state later where
  toKeepsFields := (run_keepsFields run).trans keeps.toKeepsFields
  version := fun expression member => (keeps.version expression member).trans
    ((run_frame run).version expression (apart expression member))

theorem KeepsAt.mono {sites fewer : List ExprId} (keeps : KeepsAt sites state later)
    (listed : ∀ expression ∈ fewer, expression ∈ sites) : KeepsAt fewer state later :=
  ⟨keeps.toKeepsFields, fun expression member => keeps.version expression (listed _ member)⟩

/-- A course that visits every site once transfers the facts that enter it, under the names that are
given then or at any later time at which they are the same. -/
theorem run_transfer_of_nodup (run : course.run site facts state = .ok result final)
    (once : course.sites.Nodup)
    (recorded : site.config.has .fieldVersions = true → state.tables.fields.isSome)
    (keeps : KeepsAt course.sites final later) :
    result = course.transfer site.config later facts := by
  induction course generalizing facts result state final with
  | free => exact (RunM.pure_ok run).1
  | settled outcome => cases outcome <;> exact (RunM.pure_ok run).1
  | stuck fault => cases run
  | visit place =>
      rcases run_visit_ok run with ⟨carried, visited, rfl⟩
      have kept (target : VariableSite) (visits : place.site? = some target) :
          later.version target.expression = final.version target.expression :=
        keeps.version _ (mem_sites_of_visit (List.mem_singleton.2 rfl) visits)
      rw [RunM.act_transfer visited recorded kept keeps.toKeepsFields]
      rfl
  | chain first rest firstInduction restInduction =>
      rcases run_chain_ok run with ⟨between, middle, firstRun, run⟩
      rw [sites_chain] at once keeps
      rw [List.nodup_append] at once
      have keepsRest := keeps.mono fun _ member => List.mem_append_right first.sites member
      have keepsFirst : KeepsAt first.sites middle later :=
        (keeps.mono fun _ member => List.mem_append_left rest.sites member).of_run run
          fun expression inFirst inRest => once.2.2 expression inFirst expression inRest rfl
      have recordedThen (versioned) := (run_keepsFields firstRun).recorded (recorded versioned)
      rw [restInduction run once.2.1 recordedThen keepsRest,
        firstInduction firstRun once.1 recorded keepsFirst]
      rfl
  | test condition onTrue onFalse conditionInduction trueInduction falseInduction =>
      rcases run_test_ok run with
        ⟨tested, second, left, third, right, conditionRun, trueRun, falseRun, rfl⟩
      rw [sites_test] at once keeps
      rw [List.nodup_append, List.nodup_append] at once
      rcases once with ⟨onceCondition, ⟨onceTrue, onceFalse, armsApart⟩, apart⟩
      have keepsFalse := keeps.mono fun _ member =>
        List.mem_append_right condition.sites (List.mem_append_right onTrue.sites member)
      have keepsTrue : KeepsAt onTrue.sites third later :=
        (keeps.mono fun _ member => List.mem_append_right condition.sites
          (List.mem_append_left onFalse.sites member)).of_run falseRun
          fun expression inTrue inFalse => armsApart expression inTrue expression inFalse rfl
      have keepsCondition : KeepsAt condition.sites second later :=
        ((keeps.mono fun _ member => List.mem_append_left _ member).of_run falseRun
          fun expression inside inFalse => apart expression inside expression
            (List.mem_append_right onTrue.sites inFalse) rfl).of_run trueRun
          fun expression inside inTrue => apart expression inside expression
            (List.mem_append_left onFalse.sites inTrue) rfl
      have recordedThen (versioned) := (run_keepsFields conditionRun).recorded (recorded versioned)
      have recordedLast (versioned) := (run_keepsFields trueRun).recorded (recordedThen versioned)
      rw [falseInduction falseRun onceFalse recordedLast keepsFalse,
        trueInduction trueRun onceTrue recordedThen keepsTrue,
        conditionInduction conditionRun onceCondition recorded keepsCondition]
      rfl

/-- With usage versions a course transfers the facts that enter it, under the names that are given
then or at any later time. -/
theorem run_transfer (run : course.run site facts state = .ok result final)
    (usage : site.config.has .usageVersions = true)
    (recorded : site.config.has .fieldVersions = true → state.tables.fields.isSome)
    (keeps : Keeps final later) : result = course.transfer site.config later facts := by
  induction course generalizing facts result state final with
  | free => exact (RunM.pure_ok run).1
  | settled outcome => cases outcome <;> exact (RunM.pure_ok run).1
  | stuck fault => cases run
  | visit place =>
      rcases run_visit_ok run with ⟨carried, visited, rfl⟩
      have kept (target : VariableSite) (visits : place.site? = some target) :
          later.version target.expression = final.version target.expression :=
        keeps.version _ (RunM.act_stamps visited usage visits).ne_zero
      rw [RunM.act_transfer visited recorded kept keeps.toKeepsFields]
      rfl
  | chain first rest firstInduction restInduction =>
      rcases run_chain_ok run with ⟨between, middle, firstRun, run⟩
      have between := firstInduction firstRun recorded ((run_keeps run usage).trans keeps)
      have recordedThen (versioned) := (run_keeps firstRun usage).recorded (recorded versioned)
      rw [restInduction run recordedThen keeps, between]
      rfl
  | test condition onTrue onFalse conditionInduction trueInduction falseInduction =>
      rcases run_test_ok run with
        ⟨tested, second, left, third, right, conditionRun, trueRun, falseRun, rfl⟩
      have afterTrue := (run_keeps falseRun usage).trans keeps
      have afterCondition := (run_keeps trueRun usage).trans afterTrue
      have recordedThen (versioned) := (run_keeps conditionRun usage).recorded (recorded versioned)
      have recordedLast (versioned) := (run_keeps trueRun usage).recorded (recordedThen versioned)
      rw [falseInduction falseRun recordedLast keeps, trueInduction trueRun recordedThen afterTrue,
        conditionInduction conditionRun recorded afterCondition]
      rfl

end Course

end SlotVersioning
