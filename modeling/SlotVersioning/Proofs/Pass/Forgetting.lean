import SlotVersioning.Proofs.Pass.Assembled
import SlotVersioning.Proofs.Pass.Beginning
import SlotVersioning.Proofs.Pass.Crossing
import SlotVersioning.Proofs.Trace.Execution

/-!
# Runs forget

A run resets the tables and clears the versions before it reads any, and it never reads what was
reported. So nothing that happened before shows in it: whatever a versioner ran on, and whether or
not it succeeded, it versions a body as a versioner does that never ran, and as if the body had no
versions (`Versioner.run_afresh`).
-/

namespace SlotVersioning

/-! ## Reports -/

/-- The state without its reports. -/
def RunState.silent (state : RunState) : RunState := { state with events := [] }

namespace RunM

variable {α β : Type}

/-- What a run ended with, without its reports. -/
def silence : EStateM.Result Fault RunState α → EStateM.Result Fault RunState α
  | .ok value final => .ok value final.silent
  | .error fault final => .error fault final.silent

/-- The action does the same in states that differ in their reports. -/
def Unheard (action : RunM α) : Prop :=
  ∀ left right : RunState, left.silent = right.silent →
    silence (action left) = silence (action right)

namespace Unheard

theorem throw (fault : Fault) : Unheard (throw fault : RunM α) :=
  fun _ _ same => congrArg (EStateM.Result.error fault) same

theorem bind {action : RunM α} {next : α → RunM β} (first : Unheard action)
    (second : ∀ value, Unheard (next value)) : Unheard (action >>= next) := by
  intro left right same
  have begun := first left right same
  cases leftRun : action left with
  | ok value leftMiddle =>
      cases rightRun : action right with
      | ok other rightMiddle =>
          rw [leftRun, rightRun] at begun
          injection begun with values middles
          subst values
          rw [bind_eq leftRun, bind_eq rightRun]
          exact second value leftMiddle rightMiddle middles
      | error fault rightMiddle =>
          rw [leftRun, rightRun] at begun
          exact nomatch begun
  | error fault leftMiddle =>
      cases rightRun : action right with
      | ok other rightMiddle =>
          rw [leftRun, rightRun] at begun
          exact nomatch begun
      | error otherFault rightMiddle =>
          rw [leftRun, rightRun] at begun
          injection begun with faults middles
          subst faults
          rw [bind_error leftRun, bind_error rightRun]
          exact congrArg (EStateM.Result.error fault) middles

end Unheard

/-- What is assembled from elementary actions does not read the reports. -/
theorem Assembled.unheard {action : RunM α} (assembled : Assembled action) : Unheard action := by
  induction assembled with
  | step move =>
      rintro ⟨tables, versions, leftEvents⟩ ⟨_, _, rightEvents⟩ same
      cases same
      rfl
  | report event =>
      rintro ⟨tables, versions, leftEvents⟩ ⟨_, _, rightEvents⟩ same
      cases same
      rfl
  | throw => exact .throw _
  | bind _ _ first second => exact first.bind second

variable (context : Context)

private theorem unheard_settle (fuel : Nat) (dirty : DirtyNodes) :
    Unheard (settle context fuel dirty) := by
  induction fuel generalizing dirty with
  | zero => exact assembled_tables.unheard.bind fun _ => .throw _
  | succ fuel induction =>
      rw [settle_succ]
      apply (assembled_round context dirty).unheard.bind
      intro left
      split
      · exact (Assembled.pure ()).unheard
      · exact induction left

private theorem unheard_versionAll : Unheard (versionAll context) := by
  cases found : context.graph.entry with
  | none =>
      unfold versionAll
      rw [found]
      exact (Assembled.report .nothingToDo).unheard
  | some entry =>
      rw [versionAll_seeding found]
      apply (assembled_seeding context entry).unheard.bind
      intro _
      apply (unheard_settle context _ ∅).bind
      intro _
      split
      · exact (assembled_liveRound context).unheard
      · exact (Assembled.pure ()).unheard

end RunM

/-! ## Whole runs -/

namespace Versioner

/-- The versioners that are made from the configuration and then run on any bodies. -/
inductive Reached (config : Config) : Versioner → Prop
  | made {versioner : Versioner} (made : create config = .ok versioner) : Reached config versioner
  | ran {versioner : Versioner} (earlier : Reached config versioner) (body : Body) :
      Reached config (versioner.run body).versioner

theorem config_of_create {config : Config} {versioner : Versioner}
    (made : create config = .ok versioner) : versioner.config = config := by
  rcases Fault.bind_ok made with ⟨_, -, rest⟩
  cases rest
  rfl

/-- A body is refused before anything of it changes, or the run finishes with some state. -/
theorem run_forms (versioner : Versioner) (body : Body) :
    (∃ fault, versioner.run body =
      { versioner := { config := versioner.config, tables := .fresh versioner.config }, body
        outcome := .error fault, events := [] }) ∨
      ∃ state outcome, versioner.run body = finish versioner.config body state outcome := by
  cases valid : body.validate with
  | error fault => exact .inl ⟨fault, run_of_invalid valid⟩
  | ok accepted =>
      rw [run_of_valid valid]
      cases RunM.versionAll { config := versioner.config, body }
          (start versioner.config body) with
      | ok value state => exact .inr ⟨state, .ok (), rfl⟩
      | error fault state => exact .inr ⟨state, .error fault, rfl⟩

private theorem config_run (versioner : Versioner) (body : Body) :
    (versioner.run body).versioner.config = versioner.config := by
  rcases versioner.run_forms body with ⟨fault, ran⟩ | ⟨state, outcome, ran⟩
  · rw [ran]
  · rw [ran]
    rfl

/-- A versioner keeps the configuration that it was made from. -/
private theorem Reached.config_eq {config : Config} {versioner : Versioner}
    (reached : Reached config versioner) : versioner.config = config := by
  induction reached with
  | made made => exact config_of_create made
  | @ran versioner earlier body induction => exact (config_run versioner body).trans induction

/-- A run writes versions and leaves the rest of the body alone. -/
private theorem unversioned_run (versioner : Versioner) (body : Body) :
    (versioner.run body).body.unversioned = body.unversioned := by
  rcases versioner.run_forms body with ⟨fault, ran⟩ | ⟨state, outcome, ran⟩
  · rw [ran]
  · rw [ran]
    simp only [finish, Body.unversioned, Arena.unversioned, Arena.withVersions_withVersions]

/-- The results are the same, but for their reports. -/
structure SameResult (left right : RunResult) : Prop where
  outcome : left.outcome = right.outcome
  versioner : left.versioner = right.versioner
  body : left.body = right.body

variable {config : Config} {versioner other : Versioner} {body unlike : Body}

private theorem finish_same {left right : RunState} (same : body.unversioned = unlike.unversioned)
    (silent : left.silent = right.silent) (outcome : Except Fault Unit) :
    SameResult (finish config body left outcome) (finish config unlike right outcome) := by
  have tables : left.silent.tables = right.silent.tables := congrArg RunState.tables silent
  have versions : left.silent.versions = right.silent.versions :=
    congrArg RunState.versions silent
  unfold RunState.silent at tables versions
  unfold finish
  rw [tables, versions]
  exact ⟨rfl, rfl, body.withVersions_unversioned same _⟩

/-- Runs that differ in their reports only have results that differ in their reports only. -/
private theorem concluded_same {left right : EStateM.Result Fault RunState Unit}
    (same : body.unversioned = unlike.unversioned)
    (silent : RunM.silence left = RunM.silence right) :
    SameResult (concluded config body left) (concluded config unlike right) := by
  cases left with
  | ok value leftFinal =>
      cases right with
      | ok other rightFinal =>
          injection silent with values finals
          exact finish_same same finals (.ok ())
      | error fault rightFinal => exact nomatch silent
  | error fault leftFinal =>
      cases right with
      | ok other rightFinal => exact nomatch silent
      | error otherFault rightFinal =>
          injection silent with faults finals
          subst faults
          exact finish_same same finals (.error fault)

/-- What is left of the last run is reset, and the versions in the body are cleared. -/
private theorem run_eq_of_unversioned (configs : versioner.config = other.config)
    (same : body.unversioned = unlike.unversioned) :
    (versioner.run body).outcome = (other.run unlike).outcome ∧
      (versioner.run body).versioner = (other.run unlike).versioner ∧
      (body.validate = .ok () → (versioner.run body).body = (other.run unlike).body) := by
  have checked : unlike.validate = body.validate := by
    rw [← body.validate_unversioned, same, unlike.validate_unversioned]
  cases valid : body.validate with
  | error fault =>
      rw [run_of_invalid valid, run_of_invalid (checked.trans valid), configs]
      exact ⟨rfl, rfl, fun accepted => nomatch accepted⟩
  | ok accepted =>
      have whole : RunM.versionAll { config := other.config, body } =
          RunM.versionAll { config := other.config, body := unlike } := by
        rw [← RunM.versionAll_unversioned, ← RunM.versionAll_unversioned ⟨_, unlike⟩]
        unfold Context.unversioned
        rw [same]
      rw [run_of_valid valid, run_of_valid (checked.trans valid), configs, whole]
      have alike := @concluded_same other.config body unlike _ _ same <|
        RunM.unheard_versionAll { config := other.config, body := unlike }
          (start other.config body) (start other.config unlike) rfl
      exact ⟨alike.outcome, alike.versioner, fun _ => alike.body⟩

/-- A run depends on nothing but the configuration and the body without its versions, whatever the
versioner ran on before. -/
theorem run_afresh {config : Config} {versioner fresh : Versioner} {body unlike : Body}
    (reached : Reached config versioner) (made : create config = .ok fresh)
    (same : body.unversioned = unlike.unversioned) :
    (versioner.run body).outcome = (fresh.run unlike).outcome ∧
      (versioner.run body).versioner.tables = (fresh.run unlike).versioner.tables ∧
      (body.validate = .ok () → (versioner.run body).body = (fresh.run unlike).body) := by
  have configs : versioner.config = fresh.config :=
    reached.config_eq.trans (config_of_create made).symm
  rcases run_eq_of_unversioned configs same with ⟨outcomes, versioners, bodies⟩
  exact ⟨outcomes, congrArg Versioner.tables versioners, bodies⟩

/-- One pass is not enough for `rereading`: the run fails, and leaves a pass and two numbers in the
tables and two versions in the body. A second run that starts from there ends as the first did. -/
theorem run_afresh_rereading :
    let config : Config := { Config.usage with maxPasses := 1 }
    let failed := config.versioner.run .rereading
    failed.outcome = .error (.notConverged 1) ∧
      failed.versioner.tables.passes = 1 ∧ failed.versioner.tables.lastVersion? 0 = some 2 ∧
      failed.body.arena.versionedCount = 2 ∧
      (failed.versioner.run failed.body).outcome = failed.outcome ∧
      (failed.versioner.run failed.body).versioner.tables = failed.versioner.tables ∧
      (failed.versioner.run failed.body).body = failed.body := by
  intro config failed
  have made : create config = .ok config.versioner := by
    have accepted : config.validate = .ok () := by decide
    unfold create
    rw [accepted]
    rfl
  have reached : Reached config failed.versioner := (Reached.made made).ran .rereading
  have same : failed.body.unversioned = Body.rereading.unversioned :=
    unversioned_run config.versioner .rereading
  have valid : failed.body.validate = .ok () := by
    rw [← Body.validate_unversioned, same, Body.validate_unversioned]
    rfl
  rcases run_afresh reached made same with ⟨outcomes, tables, bodies⟩
  exact ⟨by decide +kernel, by decide +kernel, by decide +kernel, by decide +kernel, outcomes, tables,
    bodies valid⟩

end Versioner

end SlotVersioning
