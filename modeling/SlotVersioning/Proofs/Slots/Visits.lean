import SlotVersioning.Proofs.Slots.Actions

/-!
# Visits and courses seen through a view

A visit of a place of the slot does the same in states that agree, when the same versions of the
slot reach it (`act_meets`). A visit of any other place does not show, and hands on the versions of
the slot (`act_unseen`). Courses match when they have one shape and the same happens to the slot at
all their places, and then they do the same to the slot (`Course.run_meets`).
-/

namespace SlotVersioning

open Std VersionGraph

namespace SlotView

/-- The same versions of the slot reach, in states that agree. -/
structure Met (view : SlotView) (facts others : Facts) (left right : RunState) : Prop where
  reaching : facts.reaching view.slot = others.reaching view.slot
  agrees : view.Agrees left right

variable {view : SlotView} {facts others : Facts} {left right : RunState}

theorem Met.symm (met : view.Met facts others left right) : view.Met others facts right left :=
  ⟨met.reaching.symm, met.agrees.symm⟩

theorem Met.pin {slot : Slot} (here : slot = view.slot) (agrees : view.Agrees left right)
    (facts others : Facts) (version : Version) :
    view.Met (facts.pin slot version) (others.pin slot version) left right := by
  refine ⟨?_, agrees⟩
  rw [Facts.reaching_pin, Facts.reaching_pin, if_pos here.symm, if_pos here.symm]

theorem Met.pin_elsewhere (met : view.Met facts others left right) {slot : Slot}
    (elsewhere : slot ≠ view.slot) (version : Version) :
    view.Met facts (others.pin slot version) left right := by
  refine ⟨?_, met.agrees⟩
  rw [Facts.reaching_pin, if_neg fun same => elsewhere same.symm]
  exact met.reaching

end SlotView

namespace RunM

variable {view : SlotView} {site other : Site} {target : VariableSite} {facts others : Facts}
  {left right start state : RunState}

/-! ## The slot itself -/

section

variable (met : view.Met facts others left right) (here : target.slot = view.slot)
  (inside : view.sites target.expression)

include met here inside

theorem define_meets :
    Meets (define site target facts) (define other target others) left right view.Met := by
  have minted := met.agrees.minted site.tree other.tree (some site.statement)
    (some other.statement)
  unfold define
  refine .step (versionOf_apply _ _) (versionOf_apply _ _) ?_
  rw [met.agrees.version _ inside]
  split
  · refine .step (mint_apply _ _ _ _) (mint_apply _ _ _ _) ?_
    rw [here, met.agrees.last_eq]
    refine .step rfl rfl (.step (editGraph_apply _ _) (editGraph_apply _ _) (.pure ?_))
    refine .pin rfl ?_ _ _ _
    exact (minted.written _ _).edited fun graph otherGraph _ _ graphs =>
      graphs.ensure _ _ rfl _ _
  · refine .bind (recordLive_meets met.agrees _ _ _) fun _ _ _ _ agrees => .pure ?_
    exact .pin here agrees _ _ _

private theorem splitRead_meets (source : Version) :
    Meets (splitRead site target source facts) (splitRead other target source others) left right
      view.Met := by
  have minted := met.agrees.minted site.tree other.tree (some site.statement)
    (some other.statement)
  unfold splitRead
  refine .step (versionOf_apply _ _) (versionOf_apply _ _) ?_
  rw [met.agrees.version _ inside]
  split
  · refine .step (mint_apply _ _ _ _) (mint_apply _ _ _ _) ?_
    rw [here, met.agrees.last_eq]
    refine .step rfl rfl (.step (editGraph_apply _ _) (editGraph_apply _ _) (.pure ?_))
    refine .pin rfl ?_ _ _ _
    exact (minted.written _ _).edited fun graph otherGraph _ _ graphs =>
      graphs.chained ⟨view.slot, source⟩ ⟨view.slot, right.last view.slot + 1⟩ rfl rfl .use
  · refine .bind (recordLive_meets met.agrees _ _ _) fun _ _ _ _ agrees => .pure ?_
    exact .pin here agrees _ _ _

private theorem mergeRead_meets (usage : view.config.has .usageVersions = true)
    (reaching : VersionSet) :
    Meets (mergeRead site target reaching facts) (mergeRead other target reaching others) left right
      view.Met := by
  have minted := met.agrees.minted site.tree other.tree (some site.statement)
    (some other.statement)
  -- Either way the version of the site is what the others are merged into.
  have merges {version : Version} {middle otherMiddle : RunState}
      (agrees : view.Agrees middle otherMiddle) :
      Meets (do
          mergeInto site ⟨target.slot, version⟩ reaching
          return facts.pin target.slot version)
        (do
          mergeInto other ⟨target.slot, version⟩ reaching
          return others.pin target.slot version) middle otherMiddle view.Met :=
    .bind (mergeInto_meets here agrees (agrees.leftReady.usage usage) reaching)
      fun _ _ _ _ ends => .pure (.pin here ends _ _ _)
  unfold mergeRead
  refine .step (versionOf_apply _ _) (versionOf_apply _ _) ?_
  rw [met.agrees.version _ inside]
  split
  · simp only [pure_bind]
    refine .step (mint_apply _ _ _ _) (mint_apply _ _ _ _) ?_
    rw [here, met.agrees.last_eq]
    refine .step rfl rfl (.step (editGraph_apply _ _) (editGraph_apply _ _) ?_)
    rw [← here]
    apply merges
    rw [here]
    exact (minted.written _ _).edited fun graph otherGraph _ _ graphs =>
      graphs.ensure _ _ rfl _ _
  · simp only [pure_bind]
    exact .bind (recordLive_meets met.agrees _ _ _) fun _ _ _ _ agrees => merges agrees

private theorem tabulateRead_meets (plain : view.config.has .usageVersions = false)
    (reaching : VersionSet) :
    Meets (tabulateRead site target reaching facts) (tabulateRead other target reaching others) left
      right view.Met := by
  have minted := met.agrees.minted site.tree other.tree (some site.statement)
    (some other.statement)
  rcases Option.isSome_iff_exists.1 (met.agrees.leftReady.phi plain) with ⟨phi, stored⟩
  rcases Option.isSome_iff_exists.1 (met.agrees.rightReady.phi plain) with ⟨otherPhi, otherStored⟩
  have same (version : Version) : phi[VersionKey.mk view.slot version]? =
      otherPhi[VersionKey.mk view.slot version]? := by
    have merged := met.agrees.merged version
    unfold Tables.merged? at merged
    rw [stored, otherStored] at merged
    exact merged
  -- What is stored for a key of the slot, whatever is stored for others.
  have inserted (version : Version) (sources : VersionSet) (found : Version) :
      (phi.insert ⟨view.slot, version⟩ sources)[VersionKey.mk view.slot found]? =
        (otherPhi.insert ⟨view.slot, version⟩ sources)[VersionKey.mk view.slot found]? := by
    rw [ExtTreeMap.getElem?_insert, ExtTreeMap.getElem?_insert, same]
  unfold tabulateRead
  refine .step (tables_apply _) (tables_apply _) ?_
  simp only [stored, otherStored]
  refine .step (versionOf_apply _ _) (versionOf_apply _ _) ?_
  rw [met.agrees.version _ inside, here, ExtTreeMap.contains_eq_isSome_getElem?,
    ExtTreeMap.contains_eq_isSome_getElem?, same, ExtTreeMap.getD_eq_getD_getElem?,
    ExtTreeMap.getD_eq_getD_getElem?, same]
  split
  · refine .step (editTables_apply _ _) (editTables_apply _ _) (.pure ?_)
    exact .pin rfl (met.agrees.tabulated (inserted _ _)) _ _ _
  · refine .step (mint_apply _ _ _ _) (mint_apply _ _ _ _) ?_
    rw [met.agrees.last_eq]
    refine .step rfl rfl (.step (report_apply _ _) (report_apply _ _)
      (.step (editTables_apply _ _) (editTables_apply _ _) (.pure ?_)))
    exact .pin rfl (((minted.written _ _).reported _ _).tabulated (inserted _ _)) _ _ _

private theorem read_meets (configured : site.config = view.config)
    (otherConfigured : other.config = view.config) :
    Meets (read site target facts) (read other target others) left right view.Met := by
  unfold read
  dsimp only
  rw [configured, otherConfigured, here, met.reaching]
  split
  · exact define_meets met here inside
  · split
    · exact splitRead_meets met here inside _
    · refine .step rfl rfl (.pure ⟨met.reaching, ?_⟩)
      exact met.agrees.written _ _
  · split
    · next usage => exact mergeRead_meets met here inside usage _
    · next plain => exact tabulateRead_meets met here inside (Bool.eq_false_iff.2 plain) _

private theorem incrementVariable_meets :
    Meets (incrementVariable site target facts) (incrementVariable other target others) left right
      view.Met := by
  unfold incrementVariable
  refine .step (tables_apply _) (tables_apply _) ?_
  rw [← Option.not_isSome, ← Option.not_isSome, met.agrees.haunted]
  split
  · exact .pure met
  · next on =>
    rw [Bool.not_eq_true, Bool.not_eq_false', ← met.agrees.haunted] at on
    refine .step (versionOf_apply _ _) (versionOf_apply _ _) ?_
    dsimp only
    rw [met.agrees.version _ inside]
    refine .bind (ensurePhantom_meets here met.agrees (met.agrees.leftReady.phantoms on)) ?_
    intro _ _ _ _ haunted
    exact .bind (recordLive_meets haunted _ _ _) fun _ _ _ _ ends => .pure (.pin here ends _ _ _)

end

/-! ## Other slots -/

section

variable (met : view.Met others facts start state) (elsewhere : target.slot ≠ view.slot)
  (outside : ¬ view.sites target.expression)

include met elsewhere outside

theorem define_unseen :
    Reaches (define site target facts) state fun result final => view.Met others result start final := by
  have minted := met.agrees.minted_elsewhere elsewhere site.tree (some site.statement)
  unfold define
  refine .step (versionOf_apply _ _) ?_
  split
  · refine .step (mint_apply _ _ _ _) (.step rfl (.step (editGraph_apply _ _) (.pure ?_)))
    refine .pin_elsewhere ⟨met.reaching, ?_⟩ elsewhere _
    exact (minted.written_elsewhere outside _).edited_elsewhere fun graph _ sound =>
      AgreesAt.ensure_elsewhere sound _ .definition _ elsewhere
  · refine .bind (recordLive_unseen met.agrees _) fun _ _ agrees => .pure ?_
    exact .pin_elsewhere ⟨met.reaching, agrees⟩ elsewhere _

private theorem splitRead_unseen (source : Version) :
    Reaches (splitRead site target source facts) state fun result final =>
      view.Met others result start final := by
  have minted := met.agrees.minted_elsewhere elsewhere site.tree (some site.statement)
  unfold splitRead
  refine .step (versionOf_apply _ _) ?_
  split
  · refine .step (mint_apply _ _ _ _) (.step rfl (.step (editGraph_apply _ _) (.pure ?_)))
    refine .pin_elsewhere ⟨met.reaching, ?_⟩ elsewhere _
    exact (minted.written_elsewhere outside _).edited_elsewhere fun graph _ sound =>
      AgreesAt.chained_elsewhere sound ⟨target.slot, source⟩
        ⟨target.slot, state.last target.slot + 1⟩ elsewhere rfl .use
  · refine .bind (recordLive_unseen met.agrees _) fun _ _ agrees => .pure ?_
    exact .pin_elsewhere ⟨met.reaching, agrees⟩ elsewhere _

private theorem mergeRead_unseen (usage : view.config.has .usageVersions = true)
    (reaching : VersionSet) :
    Reaches (mergeRead site target reaching facts) state fun result final =>
      view.Met others result start final := by
  have minted := met.agrees.minted_elsewhere elsewhere site.tree (some site.statement)
  have merges {version : Version} {middle : RunState} (agrees : view.Agrees start middle) :
      Reaches (do
          mergeInto site ⟨target.slot, version⟩ reaching
          return facts.pin target.slot version) middle fun result final =>
        view.Met others result start final :=
    .bind (mergeInto_unseen elsewhere agrees (agrees.rightReady.usage usage) reaching)
      fun _ _ ends => .pure (.pin_elsewhere ⟨met.reaching, ends⟩ elsewhere _)
  unfold mergeRead
  refine .step (versionOf_apply _ _) ?_
  split
  · simp only [pure_bind]
    refine .step (mint_apply _ _ _ _) (.step rfl (.step (editGraph_apply _ _) (merges ?_)))
    exact (minted.written_elsewhere outside _).edited_elsewhere fun graph _ sound =>
      AgreesAt.ensure_elsewhere sound _ .use _ elsewhere
  · simp only [pure_bind]
    exact .bind (recordLive_unseen met.agrees _) fun _ _ agrees => merges agrees

private theorem tabulateRead_unseen (plain : view.config.has .usageVersions = false)
    (reaching : VersionSet) :
    Reaches (tabulateRead site target reaching facts) state fun result final =>
      view.Met others result start final := by
  have minted := met.agrees.minted_elsewhere elsewhere site.tree (some site.statement)
  rcases Option.isSome_iff_exists.1 (met.agrees.rightReady.phi plain) with ⟨phi, stored⟩
  have inserted (version : Version) (sources : VersionSet) (found : Version) :
      (phi.insert ⟨target.slot, version⟩ sources)[VersionKey.mk view.slot found]? =
        phi[VersionKey.mk view.slot found]? := by
    rw [ExtTreeMap.getElem?_insert, if_neg]
    rw [Std.compare_eq_iff_eq]
    exact fun same => elsewhere (congrArg VersionKey.slot same)
  unfold tabulateRead
  refine .step (tables_apply _) ?_
  simp only [stored]
  refine .step (versionOf_apply _ _) ?_
  split
  · refine .step (editTables_apply _ _) (.pure ?_)
    exact .pin_elsewhere ⟨met.reaching, met.agrees.tabulated_elsewhere stored (inserted _ _)⟩
      elsewhere _
  · refine .step (mint_apply _ _ _ _) (.step rfl (.step (report_apply _ _)
      (.step (editTables_apply _ _) (.pure ?_))))
    have written := (minted.written_elsewhere outside (state.last target.slot + 1)).reported_elsewhere
      (.merged ⟨target.slot, state.last target.slot + 1⟩ reaching :: state.events)
    exact .pin_elsewhere ⟨met.reaching, written.tabulated_elsewhere stored (inserted _ _)⟩
      elsewhere _

private theorem read_unseen (configured : site.config = view.config) :
    Reaches (read site target facts) state fun result final =>
      view.Met others result start final := by
  unfold read
  dsimp only
  rw [configured]
  split
  · exact define_unseen met elsewhere outside
  · split
    · exact splitRead_unseen met elsewhere outside _
    · exact .step rfl (.pure ⟨met.reaching, met.agrees.written_elsewhere outside _⟩)
  · split
    · next usage => exact mergeRead_unseen met elsewhere outside usage _
    · next plain => exact tabulateRead_unseen met elsewhere outside (Bool.eq_false_iff.2 plain) _

omit outside in
private theorem incrementVariable_unseen :
    Reaches (incrementVariable site target facts) state fun result final =>
      view.Met others result start final := by
  unfold incrementVariable
  refine .step (tables_apply _) ?_
  split
  · exact .pure met
  · next on =>
    rw [← Option.not_isSome, Bool.not_eq_true, Bool.not_eq_false'] at on
    refine .step (versionOf_apply _ _) ?_
    dsimp only
    refine .bind (ensurePhantom_unseen elsewhere met.agrees
      (met.agrees.rightReady.phantoms on)) fun _ _ haunted => ?_
    exact .bind (recordLive_unseen haunted _) fun _ _ ends =>
      .pure (.pin_elsewhere ⟨met.reaching, ends⟩ elsewhere _)

end

/-! ## Copies and fields -/

theorem recordCopy_unseen (agrees : view.Agrees start state) (target : VariableSite) (value : Term) :
    Reaches (recordCopy target value) state fun _ final => view.Agrees start final := by
  cases on : state.tables.copies.isSome with
  | false =>
      exact ⟨(), state, recordCopy_off (Option.not_isSome_iff_eq_none.1 (Bool.eq_false_iff.1 on)),
        agrees⟩
  | true =>
      refine ⟨(), _, recordCopy_on on, ?_⟩
      cases value.copied? state with
      | none => exact agrees
      | some source => exact agrees.withCopy _ source

private theorem slotOfField_unseen (agrees : view.Agrees start state) (expression : ExprId) :
    Reaches (slotOfField expression) state fun slot final =>
      slot ≠ view.slot ∧ view.Agrees start final := by
  have request := slotOfField_apply expression state
  have below := slotOfField_negative request agrees.rightReady.fields
  refine ⟨_, _, request, fun same => ?_, ?_⟩
  · rw [same] at below
    exact absurd view.ordinary (Int.not_le.2 below)
  · exact agrees.withField expression

/-! ## Places -/

end RunM

/-- Nothing of the view is visited. -/
def Visit.Away (view : SlotView) (place : Visit) : Prop :=
  ∀ target, place.site? = some target → target.slot ≠ view.slot ∧ ¬ view.sites target.expression

/-- Two places at which the same happens to the slot. -/
inductive Visit.Matches (view : SlotView) : Visit → Visit → Prop
  | read {target : VariableSite} (here : target.slot = view.slot)
      (inside : view.sites target.expression) : Matches view (.read target) (.read target)
  | define {target : VariableSite} (here : target.slot = view.slot)
      (inside : view.sites target.expression) : Matches view (.define target) (.define target)
  | assign {target : VariableSite} {value otherValue : Term} (here : target.slot = view.slot)
      (inside : view.sites target.expression) :
      Matches view (.assign target value) (.assign target otherValue)
  | increment {target : VariableSite} (here : target.slot = view.slot)
      (inside : view.sites target.expression) : Matches view (.increment target) (.increment target)
  | away {place other : Visit} (away : place.Away view) (otherAway : other.Away view) :
      Matches view place other

namespace RunM

variable {view : SlotView} {site other : Site} {place otherPlace : Visit} {facts others : Facts}
  {left right start state : RunState}

/-- A visit of another place does not show. -/
theorem act_unseen (met : view.Met others facts start state) (away : place.Away view)
    (configured : site.config = view.config) :
    Reaches (place.act site facts) state fun result final => view.Met others result start final := by
  cases place with
  | read target => exact read_unseen met (away target rfl).1 (away target rfl).2 configured
  | define target => exact define_unseen met (away target rfl).1 (away target rfl).2
  | assign target value =>
      refine .bind (define_unseen met (away target rfl).1 (away target rfl).2) ?_
      intro result middle defined
      exact .bind (recordCopy_unseen defined.agrees target value) fun _ _ ends =>
        .pure ⟨defined.reaching, ends⟩
  | increment target =>
      refine .bind (read_unseen met (away target rfl).1 (away target rfl).2 configured) ?_
      exact fun _ _ picked => incrementVariable_unseen picked (away target rfl).1
  | field expression =>
      unfold Visit.act
      dsimp only
      split
      · refine .bind (slotOfField_unseen met.agrees expression) fun slot middle requested => .pure ?_
        exact .pin_elsewhere ⟨met.reaching, requested.2⟩ requested.1 1
      · exact .pure met
  | clobber =>
      refine .pure ⟨?_, met.agrees⟩
      unfold clobberFields
      split
      · rw [Facts.reaching_withoutFields, if_pos view.ordinary]
        exact met.reaching
      · exact met.reaching

/-- Visits of matching places do the same to the slot. -/
theorem act_meets (met : view.Met facts others left right) (matching : place.Matches view otherPlace)
    (configured : site.config = view.config) (otherConfigured : other.config = view.config) :
    Meets (place.act site facts) (otherPlace.act other others) left right view.Met := by
  cases matching with
  | read here inside => exact read_meets met here inside configured otherConfigured
  | define here inside => exact define_meets met here inside
  | assign here inside =>
      refine .bind (define_meets met here inside) fun result otherResult _ _ defined => ?_
      refine .bind ?_ fun _ _ _ _ ends => .pure ⟨defined.reaching, ends⟩
      exact (recordCopy_unseen defined.agrees.symm _ _).imp fun _ _ seen =>
        recordCopy_unseen seen.symm _ _
  | increment here inside =>
      refine .bind (read_meets met here inside configured otherConfigured) ?_
      exact fun _ _ _ _ picked => incrementVariable_meets picked here inside
  | away away otherAway =>
      refine (act_unseen met.symm away configured).imp fun _ _ seen => ?_
      exact act_unseen seen.symm otherAway otherConfigured

end RunM

open RunM

/-! ## Courses that match -/

/-- Courses of one shape with matching places. -/
inductive Course.Matches (view : SlotView) : Course → Course → Prop
  | free : Matches view .free .free
  | settled (outcome : Bool) : Matches view (.settled outcome) (.settled outcome)
  | stuck (fault : Fault) : Matches view (.stuck fault) (.stuck fault)
  | visit {place other : Visit} (places : place.Matches view other) :
      Matches view (.visit place) (.visit other)
  | chain {first rest otherFirst otherRest : Course} (before : Matches view first otherFirst)
      (after : Matches view rest otherRest) :
      Matches view (.chain first rest) (.chain otherFirst otherRest)
  | test {condition onTrue onFalse otherCondition otherTrue otherFalse : Course}
      (tested : Matches view condition otherCondition) (held : Matches view onTrue otherTrue)
      (failed : Matches view onFalse otherFalse) :
      Matches view (.test condition onTrue onFalse) (.test otherCondition otherTrue otherFalse)

/-- What is true and what is false is met. -/
structure SlotView.Both (view : SlotView) (results others : Facts × Facts)
    (left right : RunState) : Prop where
  onTrue : view.Met results.1 others.1 left right
  onFalse : view.Met results.2 others.2 left right

namespace SlotView

variable {view : SlotView} {facts others moreFacts moreOthers : Facts} {left right : RunState}

private theorem Met.union (met : view.Met facts others left right)
    (more : view.Met moreFacts moreOthers left right) :
    view.Met (facts ∪ moreFacts) (others ∪ moreOthers) left right := by
  refine ⟨?_, met.agrees⟩
  rw [Facts.reaching_union, Facts.reaching_union, met.reaching, more.reaching]

private theorem Met.nothing (agrees : view.Agrees left right) : view.Met ∅ ∅ left right :=
    ⟨rfl, agrees⟩

/-- What was met is still met in later states that agree. -/
private theorem Met.later {first second : RunState} (met : view.Met facts others first second)
    (agrees : view.Agrees left right) : view.Met facts others left right :=
  ⟨met.reaching, agrees⟩

end SlotView

/-- Running matching courses does the same to the slot. -/
theorem Course.run_meets {view : SlotView} {site other : Site} {course otherCourse : Course}
    (matching : course.Matches view otherCourse) (unstuck : course.Unstuck)
    (configured : site.config = view.config) (otherConfigured : other.config = view.config)
    {facts others : Facts} {left right : RunState} (met : view.Met facts others left right) :
    Meets (course.run site facts) (otherCourse.run other others) left right view.Both := by
  induction matching generalizing facts others left right with
  | free => exact .pure ⟨met, met⟩
  | settled outcome =>
      cases outcome with
      | true => exact .pure ⟨met, .nothing met.agrees⟩
      | false => exact .pure ⟨.nothing met.agrees, met⟩
  | stuck => exact unstuck.elim
  | visit places =>
      exact .bind (act_meets met places configured otherConfigured)
        fun _ _ _ _ ends => .pure ⟨ends, ends⟩
  | chain before after beforeInduction afterInduction =>
      refine .bind (beforeInduction unstuck.1 met) fun _ _ _ _ between => ?_
      exact afterInduction unstuck.2 (between.onTrue.union between.onFalse)
  | test tested held failed testedInduction heldInduction failedInduction =>
      refine .bind (testedInduction unstuck.1 met) fun _ _ _ _ outcomes => ?_
      refine .bind (heldInduction unstuck.2.1 outcomes.onTrue) fun _ _ _ _ whereTrue => ?_
      refine .bind (failedInduction unstuck.2.2 (outcomes.onFalse.later whereTrue.onTrue.agrees))
        fun _ _ _ _ whereFalse => .pure ?_
      have agrees := whereFalse.onTrue.agrees
      exact ⟨(whereTrue.onTrue.later agrees).union whereFalse.onTrue,
        (whereTrue.onFalse.later agrees).union whereFalse.onFalse⟩

theorem Course.Matches.unstuck {view : SlotView} {course otherCourse : Course}
    (matching : course.Matches view otherCourse) (unstuck : course.Unstuck) :
    otherCourse.Unstuck := by
  induction matching with
  | free | settled | visit => trivial
  | stuck => exact unstuck
  | chain before after beforeInduction afterInduction =>
      exact ⟨beforeInduction unstuck.1, afterInduction unstuck.2⟩
  | test tested held failed testedInduction heldInduction failedInduction =>
      exact ⟨testedInduction unstuck.1, heldInduction unstuck.2.1, failedInduction unstuck.2.2⟩

end SlotVersioning
