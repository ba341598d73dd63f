import SlotVersioning.Proofs.Facts.Order
import SlotVersioning.Proofs.Pass.Retaining
import SlotVersioning.Proofs.Phi.Exact

/-!
# Sets of versions that shrink

Without usage versions the sets that are stored for a variable can shrink from one pass to the next:
reads that had versions of their own adopt one that reaches them later, and two versions become one.
A set that holds something never becomes empty, and it has no fewer versions than before as long as
no site of the variable lost one of them (`Versioner.fewer_only_replaced`).
-/

namespace SlotVersioning

open Std

private theorem VersionSet.cardinality_le_of_subset {left right : VersionSet}
    (subset : ∀ version ∈ left, version ∈ right) : left.cardinality ≤ right.cardinality := by
  rw [cardinality_eq, cardinality_eq]
  have once : left.toList.Nodup := left.toList_ascending.imp fun less => Nat.ne_of_lt less
  have listed : left.toList ⊆ right.toList := by
    intro version member
    rw [mem_toList] at member ⊢
    exact subset version member
  exact (once.subperm listed).length_le

namespace Versioner

/-- The passes of a run: each leads, after a number of rounds, from one state to another. The last
one may be a live round. -/
inductive Passes (versioner : Versioner) (body : Body) : Nat → RunState → RunState → Prop
  | round {entry : NodeId} {seeded before after : RunState} {count : Nat}
      {dirty dirtyAfter : DirtyNodes}
      (valid : body.validate = .ok ()) (entered : body.graph.entry = some entry)
      (seeds : RunM.seeding { config := versioner.config, body } entry
        (start versioner.config body) = .ok () seeded)
      (rounds : RunM.Rounds { config := versioner.config, body } seeded count dirty before)
      (unsettled : count ≠ 0 → dirty.isEmpty = false)
      (allowed : count < versioner.config.maxPasses)
      (last : RunM.round { config := versioner.config, body } dirty before =
        .ok dirtyAfter after) :
      Passes versioner body count before after
  | live {entry : NodeId} {seeded before after : RunState} {count : Nat}
      (valid : body.validate = .ok ()) (entered : body.graph.entry = some entry)
      (seeds : RunM.seeding { config := versioner.config, body } entry
        (start versioner.config body) = .ok () seeded)
      (rounds : RunM.Rounds { config := versioner.config, body } seeded count ∅ before)
      (positive : 0 < count) (allowed : count ≤ versioner.config.maxPasses)
      (asked : versioner.config.has .liveRound = true)
      (last : RunM.liveRound { config := versioner.config, body } before = .ok () after) :
      Passes versioner body count before after

/-- A pass after at most `count` rounds gives another version to a site that had this one. -/
def Replaces (versioner : Versioner) (body : Body) (count : Nat) (slot : Slot)
    (version : Version) : Prop :=
  ∃ earlier ≤ count, ∃ before after, versioner.Passes body earlier before after ∧
    ∃ node, ∃ place ∈ (body.course node).visits, ∃ target, place.site? = some target ∧
      target.slot = slot ∧ before.version target.expression = version ∧
      after.version target.expression ≠ version

/-- A set that holds something holds something later, and no less unless a version of it was
replaced. -/
structure Retained (versioner : Versioner) (body : Body) (count : Nat) (slot : Slot)
    (before after : VersionSet) : Prop where
  inhabited : (∃ version, version ∈ before) → ∃ version, version ∈ after
  noFewer : (∀ version ∈ before, ¬ versioner.Replaces body count slot version) →
    before.cardinality ≤ after.cardinality

variable {versioner : Versioner} {body : Body} {count : Nat} {before after : RunState}

namespace Passes

/-- A pass goes on from some rounds, and is one turn. -/
private theorem turn (passes : versioner.Passes body count before after) (unshared : body.Unshared)
    (plain : versioner.config.has .usageVersions = false) :
    ∃ seeded dirty dirtyAfter, Unvisited seeded ∧
      RunM.Rounds { config := versioner.config, body } seeded count dirty before ∧
      Turn { config := versioner.config, body } before after ∧
      Settling { config := versioner.config, body } dirtyAfter after ∧
      ∀ earlier < count, versioner.Passes body earlier
        (RunM.rested { config := versioner.config, body } seeded earlier)
        (RunM.rested { config := versioner.config, body } seeded (earlier + 1)) := by
  cases passes with
  | @round entry seeded before after count dirty dirtyAfter valid entered seeds rounds unsettled
      allowed last =>
      have unvisited := RunM.unvisited_seeded seeds
      have settling := rounds.settling unshared unvisited.settling
      have settlingAfter := (rounds.more unsettled last).settling unshared unvisited.settling
      refine ⟨seeded, dirty, dirtyAfter, unvisited, rounds,
        RunM.turn_of_round unshared plain settling last, settlingAfter, fun earlier less => ?_⟩
      have past := rounds.past_rested less
      have next := rounds.earlier (Nat.le_of_lt less)
      exact .round valid entered seeds next.1 (next.2 less) (by omega) (rounds.round_rested less)
  | @live entry seeded before after count valid entered seeds rounds positive allowed asked last =>
      have unvisited := RunM.unvisited_seeded seeds
      have settling := rounds.settling unshared unvisited.settling
      rcases RunM.liveRound_ok last with ⟨begun, ended, dirtyAfter, counted, passes, reported⟩
      have settlingAfter := (RunM.settling_of_pass unshared (.trivial _) (settling.aside counted)
        True.intro passes).1
      refine ⟨seeded, ∅, dirtyAfter, unvisited, rounds,
        RunM.turn_of_liveRound unshared plain settling last, settlingAfter.aside reported,
        fun earlier less => ?_⟩
      have next := rounds.earlier (Nat.le_of_lt less)
      exact .round valid entered seeds next.1 (next.2 less) (by omega) (rounds.round_rested less)

/-- A pass retains what all passes so far retained at the sites. -/
private theorem retains (passes : versioner.Passes body count before after)
    (unshared : body.Unshared) (plain : versioner.config.has .usageVersions = false)
    {related : VersionSet → VersionSet → Prop} (joinable : Joinable related)
    (reflexive : ∀ set, related set set) (bottom : ∀ set, related ∅ set) {slot : Slot}
    (ordinary : 0 ≤ slot)
    (versions : ∀ earlier ≤ count, ∀ before after, versioner.Passes body earlier before after →
      RelatesVersions body related slot before after) {node : NodeId}
    (known : node < body.graph.size) :
    related (before.tables.entering node slot) (after.tables.entering node slot) ∧
      related (before.tables.leaving node slot) (after.tables.leaving node slot) := by
  rcases passes.turn unshared plain with
    ⟨seeded, dirty, dirtyAfter, unvisited, rounds, turn, settlingAfter, history⟩
  have now := versions count (Nat.le_refl count) before after passes
  have settling := rounds.settling unshared unvisited.settling
  have retains := RunM.retains_of_rounds rounds joinable reflexive bottom ordinary unshared plain
    unvisited (fun earlier less => versions earlier (Nat.le_of_lt less) _ _ (history earlier less))
    turn settlingAfter now
  rcases turn.joins node known with ⟨facts, entered, -⟩
  exact ⟨retains.entering node known,
    retains.leaving joinable bottom ordinary settling settlingAfter now known entered⟩

end Passes

/-- Without usage versions what is stored for a variable before and after a node never becomes empty
from one pass to the next, and it is no less than before unless a site of the variable lost one of
the versions in it. -/
theorem fewer_only_replaced (plain : versioner.config.has .usageVersions = false)
    (unshared : body.Unshared) (passes : versioner.Passes body count before after)
    {node : NodeId} (known : node < body.graph.size) {slot : Slot} (ordinary : 0 ≤ slot) :
    versioner.Retained body count slot (before.tables.entering node slot)
        (after.tables.entering node slot) ∧
      versioner.Retained body count slot (before.tables.leaving node slot)
        (after.tables.leaving node slot) := by
  have inhabited := passes.retains unshared plain .inhabited (fun _ inside => inside)
    (fun _ nothing => nothing.elim fun version member =>
      absurd member (VersionSet.not_mem_empty version)) ordinary
    (fun _ _ _ after _ _ _ _ target _ _ _ =>
      ⟨after.version target.expression, VersionSet.mem_singleton.2 rfl⟩) known
  have kept (version : Version) (lasting : ¬ versioner.Replaces body count slot version) :=
    passes.retains unshared plain (.member version) (fun _ inside => inside)
      (fun _ nowhere => absurd nowhere (VersionSet.not_mem_empty version)) ordinary
      (fun earlier early before after passed node place inCourse target visits same written => by
        rw [VersionSet.mem_singleton] at written ⊢
        by_contra replaced
        exact lasting ⟨earlier, early, before, after, passed, node, place, inCourse, target, visits,
          same, written.symm, fun still => replaced still.symm⟩) known
  constructor
  · refine ⟨inhabited.1, fun lasting => VersionSet.cardinality_le_of_subset ?_⟩
    exact fun version member => (kept version (lasting version member)).1 member
  · refine ⟨inhabited.2, fun lasting => VersionSet.cardinality_le_of_subset ?_⟩
    exact fun version member => (kept version (lasting version member)).2 member

namespace Parts

variable {seeded settled final : RunState} {total : Nat}

private theorem passes (parts : Parts versioner body seeded total settled final) {earlier : Nat}
    (less : earlier < total) :
    versioner.Passes body earlier
      (RunM.rested { config := versioner.config, body } seeded earlier)
      (RunM.rested { config := versioner.config, body } seeded (earlier + 1)) := by
  rcases parts.seeds with ⟨entry, entered, seeds⟩
  have next := parts.rounds.earlier (Nat.le_of_lt less)
  have few := parts.few
  exact .round parts.valid entered seeds next.1 (next.2 less) (by omega)
    (parts.rounds.round_rested less)

/-- A run without a live round that is stopped earlier leaves what was stored by then. -/
private theorem tables_rested (parts : Parts versioner body seeded total settled final)
    (dead : versioner.config.has .liveRound = false) {passes : Nat} (few : passes ≤ total) :
    (RunM.rested { config := versioner.config, body } seeded passes).tables =
      ((versioner.limitedTo passes).run body).versioner.tables := by
  rcases Nat.lt_or_eq_of_le few with less | rfl
  · exact (parts.stops (parts.rounds.past_rested less)).tables.symm
  · rw [parts.rounds.rested_eq, ← parts.dead dead]
    exact (parts.goesOn (Nat.le_refl _)).tables.symm

end Parts

end Versioner

namespace Body

/-- A loop that reads a variable in one of two ways and then assigns it. -/
def narrowing : Body where
  arena.exprs := #[.variable { slot := 0 }, .variable { slot := 0 }, .literal .null,
    .ternary 2 0 1, .variable { slot := 0 }, .literal .null, .assignment 4 5 none]
  graph.nodes := #[
    { kind := .direct, statement := 0, expressions := [3], predecessors := [1], successors := [1] },
    { kind := .direct, statement := 0, expressions := [6], predecessors := [0], successors := [0] }]
  graph.entry := some 0
  signature.isStatic := true

private theorem built_narrowing : narrowing.graph.Built := by
  have nodes : FlowGraph.Built _ := (FlowGraph.Built.empty.addNode .direct 0).addNode .direct 0
  have reading := @FlowGraph.Built.appendExpression _ _ nodes 0 3 rfl
  have assigning := @FlowGraph.Built.appendExpression _ _ reading 1 6 rfl
  have onward := @FlowGraph.Built.connect _ _ assigning 0 1 rfl
  exact @FlowGraph.Built.connect _ _ onward 1 0 rfl

theorem regular_narrowing : narrowing.Regular where
  built := built_narrowing
  usedOnce := by decide
  ordinary := ordinary_of_all rfl
  noShortPaths := fun _ => Std.ExtTreeMap.getElem?_empty
  noExtraNodes := fun _ => Std.ExtTreeSet.contains_empty

end Body

namespace Versioner

/-- The second pass over `narrowing` begins with two versions before the assignment and ends with
one. -/
theorem passes_narrowing :
    ∃ before after, Config.plain.versioner.Passes .narrowing 1 before after ∧
      before.tables.entering 1 0 = .ofList [1, 2] ∧ after.tables.entering 1 0 = .ofList [3] := by
  have success : (Config.plain.versioner.run .narrowing).outcome = .ok () := by decide +kernel
  have found : Body.narrowing.graph.entry = some 0 := rfl
  have first : ((Config.plain.versioner.limitedTo 1).run .narrowing).versioner.tables.entering 1 0 =
      .ofList [1, 2] := by
    decide +kernel
  have second :
      ((Config.plain.versioner.limitedTo (1 + 1)).run .narrowing).versioner.tables.entering 1 0 =
        .ofList [3] := by
    decide +kernel
  rcases parts_of_run success found with ⟨seeded, total, settled, final, parts⟩
  have several : 1 < total := by
    by_contra few
    have atMostOne : total ≤ 1 := Nat.le_of_not_lt few
    have atMostTwo : total ≤ 1 + 1 := by omega
    rw [(parts.goesOn atMostOne).tables] at first
    rw [(parts.goesOn atMostTwo).tables, first] at second
    exact absurd second (by decide)
  have dead : Config.plain.versioner.config.has .liveRound = false := by decide
  have enough : 1 + 1 ≤ total := several
  refine ⟨_, _, parts.passes several, ?_, ?_⟩
  · rw [parts.tables_rested dead (Nat.le_of_lt several)]
    exact first
  · rw [parts.tables_rested dead enough]
    exact second

/-- What `fewer_only_replaced` says of a pass over `narrowing`. -/
theorem fewer_only_replaced_narrowing :
    ∃ before after, Config.plain.versioner.Passes .narrowing 1 before after ∧
      Config.plain.versioner.Retained .narrowing 1 0 (before.tables.entering 1 0)
        (after.tables.entering 1 0) ∧
      Config.plain.versioner.Retained .narrowing 1 0 (before.tables.leaving 1 0)
        (after.tables.leaving 1 0) := by
  have plain : Config.plain.versioner.config.has .usageVersions = false := by decide
  have known : 1 < Body.narrowing.graph.size := by decide
  have ordinary : (0 : Slot) ≤ 0 := by decide
  rcases passes_narrowing with ⟨before, after, passes, -⟩
  exact ⟨before, after, passes,
    fewer_only_replaced plain Body.regular_narrowing.unshared passes known ordinary⟩

/-- Sets of versions do not always keep their size. -/
theorem stores_fewer :
    ¬ ∀ (versioner : Versioner) (body : Body), versioner.config.validate = .ok () →
      versioner.config.has .usageVersions = false → body.Unshared →
      ∀ count before after, versioner.Passes body count before after →
      ∀ node < body.graph.size, ∀ slot : Slot, 0 ≤ slot →
        (before.tables.entering node slot).cardinality ≤
            (after.tables.entering node slot).cardinality ∧
          (before.tables.leaving node slot).cardinality ≤
            (after.tables.leaving node slot).cardinality := by
  intro claim
  rcases passes_narrowing with ⟨before, after, passes, two, one⟩
  have noFewer := (claim Config.plain.versioner .narrowing rfl rfl
    Body.regular_narrowing.unshared 1 before after passes 1 (by decide) 0 (by decide)).1
  rw [two, one] at noFewer
  exact absurd noFewer (by decide)

end Versioner

end SlotVersioning
