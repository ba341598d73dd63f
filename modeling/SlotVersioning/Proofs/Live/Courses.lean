import SlotVersioning.Proofs.Live.Steps

/-!
# Live facts of a course

What reaches the places of a course follows from what enters it (`Course.sightings`). A live run of
a course whose sites have versions records just that, place by place (`Course.run_shows`).
-/

namespace SlotVersioning

open VersionGraph RunM

/-- What reaches each place of a course, in the order of the visits. -/
def Course.sightings (config : Config) (names : RunState) :
    Course → Facts → List (Visit × Facts)
  | free, _ | settled _, _ | stuck _, _ => []
  | visit place, facts => [(place, facts)]
  | chain first rest, facts =>
      let before := first.transfer config names facts
      first.sightings config names facts ++ rest.sightings config names (before.1 ∪ before.2)
  | test condition onTrue onFalse, facts =>
      let tested := condition.transfer config names facts
      condition.sightings config names facts ++
        (onTrue.sightings config names tested.1 ++ onFalse.sightings config names tested.2)

/-- Live facts after the places were visited one after the other. -/
def recordAll (tracking : Bool) (version : ExprId → Version) (live : VersionKey → Option Facts)
    (sightings : List (Visit × Facts)) : VersionKey → Option Facts :=
  sightings.foldl (fun live entry => record live (entry.1.snapshot tracking version entry.2)) live

private theorem Visit.snapshot_congr {tracking : Bool} {left right : ExprId → Version}
    {facts : Facts} {place : Visit}
    (same : ∀ target, place.site? = some target →
      left target.expression = right target.expression) :
    place.snapshot tracking left facts = place.snapshot tracking right facts := by
  unfold snapshot
  cases visits : place.site? with
  | none => rfl
  | some target => rw [Option.map_some, Option.map_some, same target visits]

namespace Course

/-- Every place is seen, in order. -/
theorem sightings_visits (config : Config) (names : RunState) (course : Course) (facts : Facts) :
    (course.sightings config names facts).map Prod.fst = course.visits := by
  induction course generalizing facts with
  | free | stuck => rfl
  | settled outcome => cases outcome <;> rfl
  | visit place => rfl
  | chain first rest firstInduction restInduction =>
      rw [sightings, List.map_append, firstInduction, restInduction, visits]
  | test condition onTrue onFalse conditionInduction trueInduction falseInduction =>
      rw [sightings, List.map_append, List.map_append, conditionInduction, trueInduction,
        falseInduction, visits]

theorem mem_visits_of_sightings {config : Config} {names : RunState} {course : Course}
    {facts : Facts} {entry : Visit × Facts} (member : entry ∈ course.sightings config names facts) :
    entry.1 ∈ course.visits := by
  rw [← sightings_visits config names course facts]
  exact List.mem_map_of_mem member

variable {known : VersionKey → Prop} {live : VersionKey → Option Facts} {site : Site}
  {tracking : Bool} {course : Course} {facts : Facts} {result : Facts × Facts}
  {state final later : RunState}

/-- A run of a course that is not live records nothing. -/
theorem run_shows_dead (dead : site.live = false)
    (run : course.run site facts state = .ok result final) (shows : state.Shows known live) :
    final.Shows known live :=
  @run_related site course facts result state final
    (fun before after => before.Shows known live → after.Shows known live)
    (fun _ shows => shows) (fun first second shows => second (first shows))
    (fun _ _ _ _ _ acts shows => act_shows_dead shows dead acts) run shows

/-- A live run of a course records what reaches its places. -/
theorem run_shows (isLive : site.live = true) (usage : site.config.has .usageVersions = true)
    (recorded : site.config.has .fieldVersions = true → state.tables.fields.isSome)
    (tracks : state.tables.phantoms.isSome = tracking)
    (versioned : ∀ place ∈ course.visits, ∀ target, place.site? = some target →
      state.version target.expression ≠ 0 ∧ known ⟨target.slot, state.version target.expression⟩)
    (shows : state.Shows known live) (keeps : Keeps final later)
    (run : course.run site facts state = .ok result final) :
    final.Shows known
      (recordAll tracking later.version live (course.sightings site.config later facts)) := by
  -- The sites go on having the versions that they have.
  have goesOn {visits : List Visit} {before after : RunState} (kept : Keeps before after)
      (versioned : ∀ place ∈ visits, ∀ target, place.site? = some target →
        before.version target.expression ≠ 0 ∧
          known ⟨target.slot, before.version target.expression⟩) :
      ∀ place ∈ visits, ∀ target, place.site? = some target →
        after.version target.expression ≠ 0 ∧
          known ⟨target.slot, after.version target.expression⟩ := by
    intro place member target visits
    have both := versioned place member target visits
    rw [kept.version _ both.1]
    exact both
  induction course generalizing facts result state final live with
  | free =>
      rcases pure_ok run with ⟨-, rfl⟩
      exact shows
  | settled outcome =>
      cases outcome <;>
      · rcases pure_ok run with ⟨-, rfl⟩
        exact shows
  | stuck fault => exact nomatch run
  | visit place =>
      rcases run_visit_ok run with ⟨carried, visited, -⟩
      have here := versioned place List.mem_cons_self
      have acted := act_shows isLive usage here shows visited
      have same (target : VariableSite) (visits : place.site? = some target) :
          later.version target.expression = state.version target.expression :=
        ((act_keeps visited usage).trans keeps).version _ (here target visits).1
      rw [tracks, ← Visit.snapshot_congr same] at acted
      exact acted
  | chain first rest firstInduction restInduction =>
      rw [visits, List.forall_mem_append] at versioned
      rcases run_chain_ok run with ⟨between, middle, firstRun, run⟩
      have kept := run_keeps firstRun usage
      have keepsMiddle := (run_keeps run usage).trans keeps
      have shown := firstInduction recorded tracks versioned.1 shows keepsMiddle firstRun
      have between := run_transfer firstRun usage recorded keepsMiddle
      subst between
      rw [sightings, recordAll, List.foldl_append]
      exact restInduction (fun versioned => kept.recorded (recorded versioned))
        ((run_keepsBooks firstRun).phantoms.trans tracks) (goesOn kept versioned.2) shown keeps run
  | test condition onTrue onFalse conditionInduction trueInduction falseInduction =>
      rw [visits, List.forall_mem_append, List.forall_mem_append] at versioned
      rcases run_test_ok run with
        ⟨tested, second, left, third, right, conditionRun, trueRun, falseRun, -⟩
      have tests := run_keeps conditionRun usage
      have held := run_keeps trueRun usage
      have keepsThird := (run_keeps falseRun usage).trans keeps
      have keepsSecond := held.trans keepsThird
      have tracksSecond := (run_keepsBooks conditionRun).phantoms.trans tracks
      have recordedSecond (versioned) := tests.recorded (recorded versioned)
      have shown := conditionInduction recorded tracks versioned.1 shows keepsSecond conditionRun
      have tested := run_transfer conditionRun usage recorded keepsSecond
      subst tested
      have shownTrue := trueInduction recordedSecond tracksSecond (goesOn tests versioned.2.1) shown
        keepsThird trueRun
      rw [sightings, recordAll, List.foldl_append, List.foldl_append]
      exact falseInduction (fun versioned => held.recorded (recordedSecond versioned))
        ((run_keepsBooks trueRun).phantoms.trans tracksSecond)
        (goesOn (tests.trans held) versioned.2.2) shownTrue keeps falseRun

end Course

/-! ## What was recorded -/

section

variable {tracking : Bool} {version : ExprId → Version} {live : VersionKey → Option Facts}
  {sightings : List (Visit × Facts)} {key : VersionKey}

/-- Where nothing is recorded nothing changes. -/
theorem recordAll_elsewhere
    (elsewhere : ∀ entry ∈ sightings, ∀ target, entry.1.site? = some target →
      key ≠ ⟨target.slot, version target.expression⟩) :
    recordAll tracking version live sightings key = live key := by
  induction sightings generalizing live with
  | nil => rfl
  | cons entry rest induction =>
      rw [List.forall_mem_cons] at elsewhere
      refine (induction elsewhere.2).trans ?_
      change record live (entry.1.snapshot tracking version entry.2) key = live key
      unfold Visit.snapshot
      cases visits : entry.1.site? with
      | none => rfl
      | some target => exact Function.update_of_ne (elsewhere.1 target visits) _ _

/-- When sites are seen once, and do not share versions, what was seen stays recorded. -/
theorem recordAll_of_mem (once : ((sightings.map Prod.fst).flatMap Visit.written).Nodup)
    (apart : ∀ left ∈ sightings, ∀ right ∈ sightings, ∀ target other,
      left.1.site? = some target → right.1.site? = some other →
        (⟨target.slot, version target.expression⟩ : VersionKey) =
          ⟨other.slot, version other.expression⟩ → target.expression = other.expression)
    {entry : Visit × Facts} (member : entry ∈ sightings) {target : VariableSite}
    (visits : entry.1.site? = some target) :
    recordAll tracking version live sightings ⟨target.slot, version target.expression⟩ =
      some (entry.1.liveFacts tracking (version target.expression) entry.2) := by
  induction sightings generalizing live with
  | nil => exact nomatch member
  | cons head rest induction =>
      rw [List.map_cons, List.flatMap_cons, List.nodup_append] at once
      rcases List.mem_cons.1 member with rfl | later
      · change recordAll tracking version (record live _) rest _ = _
        rw [recordAll_elsewhere]
        · unfold Visit.snapshot
          rw [visits]
          exact Function.update_self ..
        · intro other inRest site otherVisits same
          have one := apart entry List.mem_cons_self other (List.mem_cons_of_mem _ inRest)
            target site visits otherVisits same
          exact once.2.2 _ (Visit.mem_written_of_site visits) _ (List.mem_flatMap.2
            ⟨other.1, List.mem_map_of_mem inRest, Visit.mem_written_of_site otherVisits⟩) one
      · exact induction once.2.1 (fun left inLeft right inRight => apart left
          (List.mem_cons_of_mem _ inLeft) right (List.mem_cons_of_mem _ inRight)) later

end

end SlotVersioning
