import SlotVersioning.Proofs.Run.Visit

/-!
# Performances

Running a course performs its visits, each from some facts. The facts before every visit and those
at the end are the ones that `Course.arrivals` and `Course.carry` compute from the versions that are
written in the end (`run_ok`), provided that the course has no site twice.

What every visit preserves is preserved by a performance.
-/

namespace SlotVersioning

/-- Visits that were run in a row, each from the facts beside it. -/
inductive Performs (site : Site) : List (Visit × Facts) → RunState → RunState → Prop
  | nil (state : RunState) : Performs site [] state state
  | cons {place : Visit} {facts result : Facts} {rest : List (Visit × Facts)}
      {before middle after : RunState} (first : place.act site facts before = .ok result middle)
      (later : Performs site rest middle after) :
      Performs site ((place, facts) :: rest) before after

namespace Performs

variable {site : Site} {log left right : List (Visit × Facts)} {before middle after : RunState}

theorem append (first : Performs site left before middle)
    (second : Performs site right middle after) : Performs site (left ++ right) before after := by
  induction first with
  | nil => exact second
  | cons visited later induction => exact .cons visited (induction second)

theorem frame (performed : Performs site log before after) :
    Frame ((log.map Prod.fst).flatMap Visit.written) before after := by
  induction performed with
  | nil => exact .refl _
  | cons first later induction => exact (RunM.act_frame first).trans induction

theorem kept (performed : Performs site log before after)
    (usage : site.config.has .usageVersions = true) {expression : ExprId}
    (versioned : before.version expression ≠ 0) :
    after.version expression = before.version expression := by
  induction performed with
  | nil => rfl
  | cons first later induction =>
      have here := RunM.act_kept first usage versioned
      rw [← here] at versioned
      exact (induction versioned).trans here

end Performs

/-- What a run of a course does: it performs the visits of the course from the facts that arrive at
them, and ends with the facts that are carried through. -/
structure Course.Done (course : Course) (site : Site) (facts : Facts) (result : Facts × Facts)
    (log : List (Visit × Facts)) (before after : RunState) : Prop where
  performs : Performs site log before after
  visits : log.map Prod.fst = course.visits
  arrivals : ∀ slot : Slot, 0 ≤ slot →
    log.map (fun entry => (entry.1, entry.2.reaching slot)) =
      course.arrivals after.version slot (facts.reaching slot)
  onTrue : ∀ slot : Slot, 0 ≤ slot →
    result.1.reaching slot = course.carry after.version slot (facts.reaching slot) true
  onFalse : ∀ slot : Slot, 0 ≤ slot →
    result.2.reaching slot = course.carry after.version slot (facts.reaching slot) false

namespace Course

variable {site : Site} {course : Course} {facts : Facts} {result : Facts × Facts}
  {state final : RunState}

theorem Done.frame {log : List (Visit × Facts)}
    (done : course.Done site facts result log state final) : Frame course.sites state final := by
  have frame := done.performs.frame
  rw [done.visits] at frame
  exact frame

/-- A run that visits nothing. -/
private theorem done_of_nothing (visits : course.visits = [])
    (arrivals : ∀ versions slot reaching, course.arrivals versions slot reaching = [])
    (onTrue : ∀ versions slot,
      result.1.reaching slot = course.carry versions slot (facts.reaching slot) true)
    (onFalse : ∀ versions slot,
      result.2.reaching slot = course.carry versions slot (facts.reaching slot) false) :
    course.Done site facts result [] state state where
  performs := .nil state
  visits := visits.symm
  arrivals := fun slot _ => (arrivals _ slot _).symm
  onTrue := fun slot _ => onTrue _ slot
  onFalse := fun slot _ => onFalse _ slot

/-- The sites of a course keep their versions while other sites are visited. -/
private theorem agree_of_frame {others : List ExprId} {before after : RunState}
    (frame : Frame others before after)
    (apart : ∀ expression ∈ course.sites, expression ∉ others) :
    ∀ expression ∈ course.sites, before.version expression = after.version expression :=
  fun expression member => (frame.version expression (apart expression member)).symm

/-- Running a course performs its visits, and its facts are those that are computed. -/
theorem run_ok (run : course.run site facts state = .ok result final)
    (single : course.sites.Nodup) (negative : state.FieldsNegative) :
    ∃ log, course.Done site facts result log state final := by
  induction course generalizing facts result state final with
  | free =>
      rcases RunM.pure_ok run with ⟨rfl, rfl⟩
      exact ⟨[], done_of_nothing rfl (fun _ _ _ => rfl) (fun _ _ => rfl) fun _ _ => rfl⟩
  | settled outcome =>
      cases outcome <;> obtain ⟨rfl, rfl⟩ := RunM.pure_ok run <;>
        exact ⟨[], done_of_nothing rfl (fun _ _ _ => rfl) (fun _ _ => by simp [carry])
          fun _ _ => by simp [carry]⟩
  | stuck fault => cases run
  | visit place =>
      rcases run_visit_ok run with ⟨carried, visited, rfl⟩
      have carries (slot : Slot) (ordinary : 0 ≤ slot) :=
        RunM.act_reaching visited negative ordinary
      exact ⟨[(place, facts)], .cons visited (.nil _), rfl, fun _ _ => rfl, carries, carries⟩
  | chain first rest firstInduction restInduction =>
      rcases run_chain_ok run with ⟨between, middle, firstRun, run⟩
      rw [sites_chain, List.nodup_append] at single
      rcases firstInduction firstRun single.1 negative with ⟨firstLog, before⟩
      rcases restInduction run single.2.1 (before.frame.fields negative) with ⟨restLog, after⟩
      have agree : ∀ expression ∈ first.sites,
          middle.version expression = final.version expression :=
        agree_of_frame after.frame fun expression left right =>
          single.2.2 expression left expression right rfl
      have entering (slot : Slot) (ordinary : 0 ≤ slot) : (between.1 ∪ between.2).reaching slot =
          first.carry final.version slot (facts.reaching slot) true ∪
            first.carry final.version slot (facts.reaching slot) false := by
        rw [Facts.reaching_union, before.onTrue slot ordinary, before.onFalse slot ordinary,
          carry_congr agree, carry_congr agree]
      refine ⟨firstLog ++ restLog, before.performs.append after.performs, ?_, ?_, ?_, ?_⟩
      · rw [List.map_append, before.visits, after.visits, visits]
      · intro slot ordinary
        rw [List.map_append, before.arrivals slot ordinary, after.arrivals slot ordinary,
          entering slot ordinary, arrivals_congr agree, arrivals]
      · intro slot ordinary
        rw [after.onTrue slot ordinary, entering slot ordinary, carry]
      · intro slot ordinary
        rw [after.onFalse slot ordinary, entering slot ordinary, carry]
  | test condition onTrue onFalse conditionInduction trueInduction falseInduction =>
      rcases run_test_ok run with
        ⟨tested, second, left, third, right, conditionRun, trueRun, falseRun, rfl⟩
      rw [sites_test, List.nodup_append, List.nodup_append] at single
      rcases single with ⟨conditionSingle, ⟨trueSingle, falseSingle, armsApart⟩, apart⟩
      rcases conditionInduction conditionRun conditionSingle negative with ⟨conditionLog, tests⟩
      have secondNegative := tests.frame.fields negative
      rcases trueInduction trueRun trueSingle secondNegative with ⟨trueLog, held⟩
      rcases falseInduction falseRun falseSingle (held.frame.fields secondNegative) with
        ⟨falseLog, failed⟩
      have conditionAgree : ∀ expression ∈ condition.sites,
          second.version expression = final.version expression :=
        agree_of_frame (held.frame.trans failed.frame) fun expression left right =>
          apart expression left expression right rfl
      have trueAgree : ∀ expression ∈ onTrue.sites,
          third.version expression = final.version expression :=
        agree_of_frame failed.frame fun expression left right =>
          armsApart expression left expression right rfl
      have afterTrue (slot : Slot) (ordinary : 0 ≤ slot) :=
        (tests.onTrue slot ordinary).trans (carry_congr conditionAgree _ _)
      have afterFalse (slot : Slot) (ordinary : 0 ≤ slot) :=
        (tests.onFalse slot ordinary).trans (carry_congr conditionAgree _ _)
      refine ⟨conditionLog ++ (trueLog ++ falseLog),
        tests.performs.append (held.performs.append failed.performs), ?_, ?_, ?_, ?_⟩
      · rw [List.map_append, List.map_append, tests.visits, held.visits, failed.visits, visits]
      · intro slot ordinary
        rw [List.map_append, List.map_append, tests.arrivals slot ordinary,
          held.arrivals slot ordinary, failed.arrivals slot ordinary,
          arrivals_congr conditionAgree, arrivals_congr trueAgree, afterTrue slot ordinary,
          afterFalse slot ordinary, arrivals]
      · intro slot ordinary
        rw [Facts.reaching_union, held.onTrue slot ordinary, failed.onTrue slot ordinary,
          carry_congr trueAgree, afterTrue slot ordinary, afterFalse slot ordinary, carry]
      · intro slot ordinary
        rw [Facts.reaching_union, held.onFalse slot ordinary, failed.onFalse slot ordinary,
          carry_congr trueAgree, afterTrue slot ordinary, afterFalse slot ordinary, carry]

theorem unstuck_of_run (run : course.run site facts state = .ok result final) :
    course.Unstuck := by
  induction course generalizing facts result state final with
  | free | settled | visit => trivial
  | stuck fault => cases run
  | chain first rest firstInduction restInduction =>
      rcases run_chain_ok run with ⟨between, middle, firstRun, run⟩
      exact ⟨firstInduction firstRun, restInduction run⟩
  | test condition onTrue onFalse conditionInduction trueInduction falseInduction =>
      rcases run_test_ok run with
        ⟨tested, second, left, third, right, conditionRun, trueRun, falseRun, -⟩
      exact ⟨conditionInduction conditionRun, trueInduction trueRun, falseInduction falseRun⟩

end Course

end SlotVersioning
