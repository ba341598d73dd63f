import SlotVersioning.Proofs.Phi.History
import SlotVersioning.Proofs.Trace.Plain

/-!
# Exactness of the phi table

The phi table is exact when every merged version has the versions that reach its reads in the end,
and nothing else is in the table. Merged versions keep what was merged into them in earlier rounds,
so the table is exact precisely when no earlier round merged anything else
(`Versioner.phi_exact_iff`). What a run has merged after a number of rounds is what it leaves behind
when it is allowed no more than these.
-/

namespace SlotVersioning

open Std

namespace RunResult

/-- A read has the version of the key after the run, and several versions reach it. -/
def Merges (body : Body) (result : RunResult) (key : VersionKey) (reaching : VersionSet) : Prop :=
  ∃ node, MergesAt body result.versioner.tables result.version node key reaching

/-- The phi table holds what reaches the reads of merged versions, and nothing else. -/
def PhiExact (body : Body) (result : RunResult) : Prop :=
  (∀ key reaching, result.Merges body key reaching →
    result.versioner.tables.merged? key = some reaching) ∧
  ∀ key sources, result.versioner.tables.merged? key = some sources →
    ∃ reaching, result.Merges body key reaching

theorem Leaves.merges_iff {body : Body} {result : RunResult} {state : RunState}
    (leaves : result.Leaves body state) (key : VersionKey) (reaching : VersionSet) :
    result.Merges body key reaching ↔
      ∃ node, MergesAt body state.tables state.version node key reaching := by
  unfold Merges
  rw [leaves.tables]
  constructor
  · rintro ⟨node, merges⟩
    exact ⟨node, merges.congr rfl (leaves.version node)⟩
  · rintro ⟨node, merges⟩
    exact ⟨node, merges.congr rfl fun expression member =>
      (leaves.version node expression member).symm⟩

end RunResult

theorem MergesAt.of_same {body : Body} {before after : RunState} {node : NodeId}
    {key : VersionKey} {reaching : VersionSet} (regular : body.Regular)
    (merges : MergesAt body before.tables before.version node key reaching)
    (alike : Alike before after) (same : RunM.SameEntering before after) :
    MergesAt body after.tables after.version node key reaching := by
  rcases merges with ⟨facts, place, target, stored, arrives, visits, reads, several, rfl⟩
  have ordinary := regular.ordinary_of_visit (Course.mem_visits_of_arrival arrives) visits
  rcases same node facts stored with ⟨entered, found, equal⟩
  rw [alike.version]
  refine ⟨entered, place, target, found, ?_, visits, reads, several, rfl⟩
  rw [equal target.slot ordinary]
  exact arrives

theorem Tables.stored_of_entering {tables : Tables} {node : NodeId} {slot : Slot}
    {version : Version} (member : version ∈ tables.entering node slot) :
    ∃ facts, tables.inFacts[node]? = some facts ∧
      facts.reaching slot = tables.entering node slot := by
  unfold entering at member ⊢
  cases stored : tables.inFacts[node]? with
  | none =>
      rw [stored] at member
      exact absurd member (VersionSet.not_mem_empty version)
  | some facts => exact ⟨facts, rfl, rfl⟩

namespace Versioner

variable {versioner : Versioner} {body : Body}

/-! ## Runs that stop early -/

namespace Parts

variable {seeded settled final : RunState} {total : Nat}

/-- A run that is allowed fewer rounds stops after them. -/
theorem stops (parts : Parts versioner body seeded total settled final) {past : RunState}
    {passes : Nat} (found : RunM.Past { config := versioner.config, body } seeded past passes) :
    ((versioner.limitedTo passes).run body).Leaves body past := by
  rcases parts.seeds with ⟨entry, entered, seeds⟩
  rcases found with ⟨dirty, rounds, unsettled⟩
  rw [run_of_rounds parts.valid entered seeds rounds unsettled]
  exact leaves_finish _ _ _ _

/-- A run that is allowed all rounds is the same run. -/
theorem goesOn (parts : Parts versioner body seeded total settled final) {passes : Nat}
    (enough : total ≤ passes) :
    ((versioner.limitedTo passes).run body).Leaves body final := by
  rcases parts.seeds with ⟨entry, entered, seeds⟩
  have settles := RunM.settle_of_settled parts.rounds parts.positive (passes - total)
  rw [Nat.add_sub_cancel' enough] at settles
  rw [run_limitedTo passes parts.valid,
    RunM.versionAll_limitedTo (Context.mk versioner.config body) passes entered,
    RunM.bind_eq seeds, RunM.bind_eq settles]
  cases live : versioner.config.has .liveRound with
  | true =>
      rw [if_pos rfl, parts.live live]
      exact leaves_finish _ _ _ _
  | false =>
      rw [if_neg Bool.false_ne_true, parts.dead live]
      exact leaves_finish _ _ _ _

end Parts

/-! ## The table and the history -/

private theorem peopled_of_unvisited {state : RunState} (unvisited : Unvisited state) :
    state.tables.Peopled := by
  intro key sources found
  rw [unvisited.merged] at found
  exact nomatch found

namespace Parts

variable {seeded settled final : RunState} {total : Nat}

/-- What is in the table in the end is merged after some number of rounds. -/
private theorem merged_once (parts : Parts versioner body seeded total settled final)
    (regular : body.Regular) {key : VersionKey} {version : Version}
    (holds : final.tables.Holds key version) :
    ∃ passes reaching, ((versioner.limitedTo passes).run body).Merges body key reaching ∧
      version ∈ reaching := by
  have ended := parts.ended regular (.trivial _) True.intro
  have holdsSettled : settled.tables.Holds key version := by
    unfold Tables.Holds at holds ⊢
    rw [ended.alike.merged] at holds
    exact holds
  rcases parts.rounds.holds regular parts.unvisited.settling holdsSettled with
    start | ⟨past, passes, node, reaching, -, found, merges, member⟩ |
      ⟨node, reaching, merges, member⟩
  · rcases start with ⟨sources, found, -⟩
    rw [parts.unvisited.merged] at found
    exact nomatch found
  · exact ⟨passes, reaching, ((parts.stops found).merges_iff key reaching).2 ⟨node, merges⟩, member⟩
  · refine ⟨total, reaching, ((parts.goesOn (Nat.le_refl total)).merges_iff key reaching).2
      ⟨node, ?_⟩, member⟩
    exact merges.of_same regular ended.alike ended.sameEntering

/-- What was merged after a number of rounds is in the table in the end. -/
private theorem merged_always (parts : Parts versioner body seeded total settled final)
    (regular : body.Regular) (plain : versioner.config.has .usageVersions = false) {passes : Nat}
    {key : VersionKey} {reaching : VersionSet}
    (merges : ((versioner.limitedTo passes).run body).Merges body key reaching) :
    ∃ sources, final.tables.merged? key = some sources ∧
      ∀ version ∈ reaching, version ∈ sources := by
  have ended := parts.ended regular (.trivial _) True.intro
  rcases Nat.lt_or_ge passes total with less | enough
  · rcases parts.rounds.past regular parts.unvisited.settling passes less with
      ⟨past, found, grows⟩
    rcases ((parts.stops found).merges_iff key reaching).1 merges with ⟨node, mergesPast⟩
    rcases found with ⟨dirty, rounds, -⟩
    have settling := RunM.settling_of_rounds regular.unshared (.trivial _) parts.unvisited.settling
      True.intro rounds
    rcases mergesPast.merged regular plain settling.1 with ⟨sources, stored, subset⟩
    rcases grows key sources stored with ⟨more, storedMore, further⟩
    rw [ended.alike.merged]
    exact ⟨more, storedMore, fun version member => further version (subset version member)⟩
  · rcases ((parts.goesOn enough).merges_iff key reaching).1 merges with ⟨node, mergesFinal⟩
    exact mergesFinal.merged regular plain ended.settled.toSettling

end Parts

/-- The phi table holds what was merged after some number of rounds, and nothing else. -/
structure Collects (versioner : Versioner) (body : Body) : Prop where
  once : ∀ key version, (versioner.run body).versioner.tables.Holds key version →
    ∃ passes merged, ((versioner.limitedTo passes).run body).Merges body key merged ∧
      version ∈ merged
  always : ∀ passes key merged, ((versioner.limitedTo passes).run body).Merges body key merged →
    ∃ sources, (versioner.run body).versioner.tables.merged? key = some sources ∧
      ∀ version ∈ merged, version ∈ sources
  peopled : (versioner.run body).versioner.tables.Peopled

private theorem collects_of_run (plain : versioner.config.has .usageVersions = false)
    (regular : body.Regular) (success : (versioner.run body).outcome = .ok ()) :
    Collects versioner body := by
  cases found : body.graph.entry with
  | none =>
      rcases run_ok success with ⟨-, valid, -, -⟩
      rcases run_of_noEntry versioner valid found with ⟨final, unvisited, -, result⟩
      refine ⟨fun key version holds => ?_, fun passes key merged merges => ?_, ?_⟩
      · rw [result] at holds
        rcases holds with ⟨sources, stored, -⟩
        exact nomatch (unvisited.merged key).symm.trans stored
      · rcases run_of_noEntry (versioner.limitedTo passes) valid found with
          ⟨stopped, nowhere, -, limited⟩
        rw [limited] at merges
        rcases merges with ⟨node, facts, place, target, entering, -⟩
        have absent : stopped.tables.inFacts[node]? = none := by
          rw [nowhere.inFacts]
          exact ExtTreeMap.getElem?_empty
        exact nomatch absent.symm.trans entering
      · rw [result]
        exact peopled_of_unvisited unvisited
  | some entry =>
      rcases parts_of_run success found with ⟨seeded, total, settled, final, parts⟩
      have ended := parts.ended regular (RunM.invariant_peopled _)
        (peopled_of_unvisited parts.unvisited)
      refine ⟨?_, ?_, ?_⟩
      · rw [parts.result]
        exact fun key version holds => parts.merged_once regular holds
      · rw [parts.result]
        exact fun passes key merged merges => parts.merged_always regular plain merges
      · rw [parts.result]
        exact ended.holds

/-- Without usage versions the phi table is exact precisely when every version that was merged after
some number of rounds still has reads that several versions reach, and all that was merged still
reaches them. -/
theorem phi_exact_iff (plain : versioner.config.has .usageVersions = false)
    (regular : body.Regular) (success : (versioner.run body).outcome = .ok ()) :
    (versioner.run body).PhiExact body ↔
      ∀ passes key merged, ((versioner.limitedTo passes).run body).Merges body key merged →
        (∃ reaching, (versioner.run body).Merges body key reaching) ∧
        ∀ reaching, (versioner.run body).Merges body key reaching →
          ∀ version ∈ merged, version ∈ reaching := by
  -- The run is itself one that is allowed enough rounds.
  have whole : (versioner.limitedTo versioner.config.maxPasses).run body = versioner.run body := rfl
  rcases collects_of_run plain regular success with ⟨once, always, peopled⟩
  constructor
  · rintro ⟨exact, owned⟩ passes key merged merges
    rcases always passes key merged merges with ⟨sources, found, subset⟩
    refine ⟨owned key sources found, fun reaching final version member => ?_⟩
    rw [exact key reaching final] at found
    cases found
    exact subset version member
  · intro history
    have sound {key : VersionKey} {sources reaching : VersionSet}
        (found : (versioner.run body).versioner.tables.merged? key = some sources)
        (final : (versioner.run body).Merges body key reaching) :
        ∀ version ∈ sources, version ∈ reaching := by
      intro version member
      rcases once key version ⟨sources, found, member⟩ with ⟨passes, merged, merges, within⟩
      exact (history passes key merged merges).2 reaching final version within
    refine ⟨fun key reaching final => ?_, fun key sources found => ?_⟩
    · rcases always versioner.config.maxPasses key reaching (whole ▸ final) with
        ⟨sources, found, subset⟩
      rw [found]
      refine congrArg some (VersionSet.ext fun version => ⟨sound found final version, ?_⟩)
      exact subset version
    · rcases peopled key sources found with ⟨version, member⟩
      rcases once key version ⟨sources, found, member⟩ with ⟨passes, merged, merges, -⟩
      exact (history passes key merged merges).1

end Versioner

namespace Body

/-- A loop with a parameter that is read, perhaps assigned, and read again. -/
def reassigning : Body where
  arena.exprs := #[.variable { slot := 0 }, .variable { slot := 0 }, .literal .null,
    .assignment 1 2 none, .literal .null, .and 4 3, .variable { slot := 0 }]
  graph.nodes := #[
    { kind := .direct, statement := 0, expressions := [0, 5, 6], predecessors := [0]
      successors := [0] }]
  graph.entry := some 0
  signature := { isStatic := true, parameters := [.single] }

private theorem built_reassigning : reassigning.graph.Built := by
  have node : FlowGraph.Built _ := FlowGraph.Built.empty.addNode .direct 0
  have first := @FlowGraph.Built.appendExpression _ _ node 0 0 rfl
  have second := @FlowGraph.Built.appendExpression _ _ first 0 5 rfl
  have third := @FlowGraph.Built.appendExpression _ _ second 0 6 rfl
  exact @FlowGraph.Built.connect _ _ third 0 0 rfl

theorem regular_reassigning : reassigning.Regular where
  built := built_reassigning
  usedOnce := by decide
  ordinary := ordinary_of_all rfl
  noShortPaths := fun _ => Std.ExtTreeMap.getElem?_empty
  noExtraNodes := fun _ => Std.ExtTreeSet.contains_empty

end Body

namespace Versioner

/-- What `phi_exact_iff` says of `reassigning`. -/
theorem phi_exact_iff_reassigning :
    (Config.plain.versioner.run .reassigning).PhiExact .reassigning ↔
      ∀ passes key merged,
        ((Config.plain.versioner.limitedTo passes).run .reassigning).Merges .reassigning key
          merged →
        (∃ reaching,
          (Config.plain.versioner.run .reassigning).Merges .reassigning key reaching) ∧
        ∀ reaching, (Config.plain.versioner.run .reassigning).Merges .reassigning key reaching →
          ∀ version ∈ merged, version ∈ reaching :=
  phi_exact_iff (show Config.plain.versioner.config.has _ = false from rfl)
    Body.regular_reassigning (by decide +kernel)

/-- In the end versions 2 and 4 reach the last read of `reassigning`, but version 1, which reached
it in the first round, is still in the table. -/
private theorem merges_reassigning :
    (Config.plain.versioner.run .reassigning).Merges .reassigning ⟨0, 3⟩ (.ofList [2, 4]) ∧
      (Config.plain.versioner.run .reassigning).versioner.tables.merged? ⟨0, 3⟩ =
        some (.ofList [1, 2, 4]) := by
  refine ⟨?_, by decide +kernel⟩
  have entering : (Config.plain.versioner.run .reassigning).versioner.tables.entering 0 0 =
      .ofList [1, 3] := by
    decide +kernel
  have arrives : (.read ⟨6, 0, none⟩, .ofList [2, 4]) ∈ (Body.reassigning.course 0).arrivals
      (Config.plain.versioner.run .reassigning).version 0 (.ofList [1, 3]) := by
    decide +kernel
  have key : VersionKey.mk 0 3 =
      ⟨0, (Config.plain.versioner.run .reassigning).version 6⟩ := by
    decide +kernel
  rcases Tables.stored_of_entering (entering ▸ (by decide : 1 ∈ VersionSet.ofList [1, 3]))
    with ⟨facts, stored, reaching⟩
  rw [← entering, ← reaching] at arrives
  exact ⟨0, facts, .read ⟨6, 0, none⟩, ⟨6, 0, none⟩, stored, arrives, rfl, rfl,
    by decide, key⟩

/-- The phi table is not always exact. -/
theorem phi_not_exact :
    ¬ ∀ (versioner : Versioner) (body : Body), versioner.config.has .usageVersions = false →
      body.Regular → (versioner.run body).outcome = .ok () →
      (versioner.run body).PhiExact body := by
  intro claim
  have exact := claim Config.plain.versioner .reassigning rfl Body.regular_reassigning
    (by decide +kernel)
  rcases merges_reassigning with ⟨merges, table⟩
  rw [exact.1 _ _ merges] at table
  exact absurd table (by decide)

end Versioner

end SlotVersioning
