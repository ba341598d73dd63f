import SlotVersioning.Proofs.Flow.References
import SlotVersioning.Proofs.Pass.Assembled
import SlotVersioning.Proofs.Pass.Limits

/-!
# Runs whose passes run out

The fault that tells that the passes ran out is raised between passes only. An action is *tireless*
when it does not raise it; everything that happens at a node is tireless. So a run that ends with
that fault went through as many rounds as were allowed, and left a dirty node after every one of
them (`Versioner.exhausted_of_run`).
-/

namespace SlotVersioning

namespace RunM

variable {α β : Type}

def Tireless (action : RunM α) : Prop :=
  ∀ state passes final, action state ≠ .error (.notConverged passes) final

/-- What is assembled from elementary actions does not tire. -/
theorem Assembled.tireless {action : RunM α} (assembled : Assembled action) : Tireless action := by
  intro state passes final run
  induction assembled generalizing state with
  | step move => exact nomatch run
  | report event => exact nomatch run
  | throw other =>
      cases run
      exact other rfl
  | @bind _ _ action next first second firstInduction secondInduction =>
      cases ran : action state with
      | ok value middle =>
          rw [bind_eq ran] at run
          exact secondInduction value middle run
      | error fault middle =>
          rw [bind_error ran] at run
          cases run
          exact firstInduction state ran

variable {context : Context}

/-! ## Whole runs -/

/-- The loop runs out of passes when all rounds that it may make leave dirty nodes. -/
private theorem settle_exhausted {start state final : RunState} {fuel count passes : Nat}
    {dirty : DirtyNodes} (earlier : Rounds context start count dirty state)
    (unsettled : count ≠ 0 → dirty.isEmpty = false)
    (run : settle context fuel dirty state = .error (.notConverged passes) final) :
    ∃ dirtyLast last, Rounds context start (count + fuel) dirtyLast last ∧
      (count + fuel ≠ 0 → dirtyLast.isEmpty = false) := by
  induction fuel generalizing count dirty state with
  | zero => exact ⟨dirty, state, earlier, unsettled⟩
  | succ fuel induction =>
      rw [settle_succ] at run
      cases last : round context dirty state with
      | error fault middle =>
          rw [bind_error last] at run
          cases run
          exact absurd last ((assembled_round context dirty).tireless state passes _)
      | ok dirtyAfter middle =>
          rw [bind_eq last] at run
          split at run
          · exact nomatch run
          · next dirtyLeft =>
              have rounds := induction (.more earlier unsettled last)
                (fun _ => Bool.eq_false_iff.2 dirtyLeft) run
              rw [Nat.add_right_comm] at rounds
              exact rounds

/-- A block fails at its first step or later. -/
private theorem bind_fails {α β : Type} {action : RunM α} {next : α → RunM β}
    {state final : RunState} {fault : Fault} (run : (action >>= next) state = .error fault final) :
    action state = .error fault final ∨
      ∃ value middle, action state = .ok value middle ∧ next value middle = .error fault final := by
  cases ran : action state with
  | ok value middle =>
      rw [bind_eq ran] at run
      exact .inr ⟨value, middle, rfl, run⟩
  | error early middle =>
      rw [bind_error ran] at run
      cases run
      exact .inl rfl

private theorem exhausted_of_versionAll {state final : RunState} {entry : NodeId} {passes : Nat}
    (found : context.graph.entry = some entry)
    (run : versionAll context state = .error (.notConverged passes) final) :
    ∃ seeded dirty last, seeding context entry state = .ok () seeded ∧
      Rounds context seeded context.config.maxPasses dirty last ∧
      (context.config.maxPasses ≠ 0 → dirty.isEmpty = false) := by
  rw [versionAll_seeding found] at run
  rcases bind_fails run with seedingFails | ⟨_, seeded, seeds, run⟩
  · exact absurd seedingFails ((assembled_seeding context entry).tireless state passes final)
  rcases bind_fails run with settleFails | ⟨_, settled, settles, run⟩
  · rcases settle_exhausted .none (fun positive => absurd rfl positive) settleFails with
      ⟨dirty, last, rounds, unsettled⟩
    rw [Nat.zero_add] at rounds unsettled
    exact ⟨seeded, dirty, last, seeds, rounds, unsettled⟩
  · split at run
    · exact absurd run ((assembled_liveRound context).tireless settled passes final)
    · exact nomatch run

end RunM

namespace Versioner

variable {versioner : Versioner} {body : Body}

/-- A run whose passes run out was seeded and then left dirty nodes after every round. -/
theorem exhausted_of_run {passes : Nat}
    (exhausted : (versioner.run body).outcome = .error (.notConverged passes)) :
    ∃ entry seeded dirty last, body.validate = .ok () ∧ body.graph.entry = some entry ∧
      RunM.seeding { config := versioner.config, body } entry (start versioner.config body) =
        .ok () seeded ∧
      RunM.Rounds { config := versioner.config, body } seeded versioner.config.maxPasses dirty
        last ∧
      (versioner.config.maxPasses ≠ 0 → dirty.isEmpty = false) := by
  cases valid : body.validate with
  | error fault =>
      rw [run_of_invalid valid] at exhausted
      cases exhausted
      exact nomatch FlowGraph.kind_of_validate valid
  | ok accepted =>
      rw [run_of_valid valid] at exhausted
      cases whole : RunM.versionAll { config := versioner.config, body }
          (start versioner.config body) with
      | ok value final =>
          rw [whole] at exhausted
          exact nomatch exhausted
      | error fault final =>
          rw [whole] at exhausted
          cases exhausted
          cases entered : body.graph.entry with
          | none =>
              unfold RunM.versionAll Context.graph at whole
              rw [entered] at whole
              exact nomatch whole
          | some entry =>
              have found : (Context.mk versioner.config body).graph.entry = some entry := entered
              rcases RunM.exhausted_of_versionAll found whole with
                ⟨seeded, dirty, last, seeds, rounds, unsettled⟩
              exact ⟨entry, seeded, dirty, last, rfl, rfl, seeds, rounds, unsettled⟩

end Versioner

end SlotVersioning
