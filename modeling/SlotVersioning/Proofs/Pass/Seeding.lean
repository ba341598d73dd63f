import SlotVersioning.Proofs.Pass.Beginning
import SlotVersioning.Proofs.Pass.Settled
import SlotVersioning.Proofs.Run.Indifferent

/-!
# Seeding

Before the first round a run stores the facts that enter from outside. Nothing else is stored then,
and nothing is written.
-/

namespace SlotVersioning

open Std

/-- No node was visited yet. -/
structure Unvisited (state : RunState) : Prop where
  inFacts : state.tables.inFacts = ∅
  outFacts : state.tables.outFacts = ∅
  negativeFacts : state.tables.negativeFacts = ∅
  version : ∀ expression, state.version expression = 0
  merged : ∀ key, state.tables.merged? key = none
  fields : state.FieldsNegative

theorem Unvisited.of_quiet {before after : RunState} (unvisited : Unvisited before)
    (quiet : Quiet before after) : Unvisited after where
  inFacts := (congrArg Stores.inFacts quiet.stores).trans unvisited.inFacts
  outFacts := (congrArg Stores.outFacts quiet.stores).trans unvisited.outFacts
  negativeFacts := (congrArg Stores.negativeFacts quiet.stores).trans unvisited.negativeFacts
  version := fun expression => (quiet.version expression).trans (unvisited.version expression)
  merged := fun key => (Tables.merged?_congr quiet.phi key).trans (unvisited.merged key)
  fields := quiet.fields unvisited.fields

namespace Unvisited

variable {state : RunState} (unvisited : Unvisited state)

include unvisited

/-- Nothing is stored before a node that was not visited. -/
theorem not_entering {name : NodeId} {facts : Facts} :
    ¬ state.tables.inFacts[name]? = some facts := by
  intro entering
  rw [unvisited.inFacts, ExtTreeMap.getElem?_empty] at entering
  exact nomatch entering

/-- Nothing is stored after a node that was not visited. -/
theorem not_leaving (name : NodeId) :
    state.tables.outFacts[name]? = none ∧ state.tables.negativeFacts[name]? = none := by
  rw [unvisited.outFacts, unvisited.negativeFacts]
  exact ⟨ExtTreeMap.getElem?_empty, ExtTreeMap.getElem?_empty⟩

theorem settling {context : Context} : Settling context ∅ state := by
  refine ⟨unvisited.fields, ?_, fun name _ => unvisited.not_leaving name,
    fun _ _ entering => (unvisited.not_entering entering).elim,
    fun _ _ entering => (unvisited.not_entering entering).elim,
    fun _ _ entering => (unvisited.not_entering entering).elim,
    fun _ _ entering => (unvisited.not_entering entering).elim⟩
  intro key sources found
  rw [unvisited.merged] at found
  exact nomatch found

end Unvisited

namespace RunM

variable {motive : RunState → Prop}

theorem quietly_seedVersion (context : Context) (statement : StatementId) (facts : Facts)
    (slot : Slot) : Quietly (seedVersion context statement facts slot) :=
  (quietly_mint _ _ _).bind fun _ => (quietly_editGraph _).bind fun _ => quietly_pure _

/-- Seeding mints versions that enter and stores facts that hold them. What is preserved by these
steps, as long as the facts are good, is preserved by the whole seeding. -/
theorem preserves_seeding {context : Context} (good : RunState → Facts → Prop)
    (empty : ∀ state, motive state → good state ∅)
    (versions : ∀ statement facts slot state value final, motive state → good state facts →
      seedVersion context statement facts slot state = .ok value final →
        motive final ∧ good final value)
    (stores : ∀ node facts state final, motive state → good state facts →
      storeSeeds node facts state = .ok () final → motive final) (entry : NodeId) :
    Preserves motive (seeding context entry) := by
  have parameters : Preserves motive (seedParameters context entry) := by
    intro state value final holds run
    rcases bind_ok run with ⟨facts, middle, minted, run⟩
    have seeded : motive middle ∧ good middle facts := by
      refine foldlM_induction (motive := fun _ facts state => motive state ∧ good state facts) 0
        (fun index slot facts next before after found holds stepped => ?_) minted
        ⟨holds, empty state holds⟩
      exact versions _ facts slot before next after holds.1 holds.2 stepped
    exact stores entry facts middle final seeded.1 seeded.2 run
  refine parameters.bind fun _ => Preserves.forM _ fun statement => ?_
  unfold seedHandlers
  dsimp only
  split
  · exact Preserves.pure ()
  · refine Preserves.forM _ fun handler => ?_
    unfold seedHandler
    dsimp only
    split
    · exact Preserves.throw _
    · exact Preserves.throw _
    · intro state value final holds run
      rcases bind_ok run with ⟨facts, middle, minted, run⟩
      have seeded := versions _ ∅ _ state facts middle holds (empty state holds) minted
      exact stores _ facts middle final seeded.1 seeded.2 run

theorem preserves_unvisited (context : Context) (entry : NodeId) :
    Preserves Unvisited (seeding context entry) := by
  refine preserves_seeding (fun _ _ => True) (fun _ _ => True.intro) ?_ ?_ entry
  · intro statement facts slot state value final unvisited _ run
    exact ⟨unvisited.of_quiet (quietly_seedVersion _ _ _ _ _ _ _ run), True.intro⟩
  · intro node facts state final unvisited _ run
    cases run
    exact ⟨unvisited.inFacts, unvisited.outFacts, unvisited.negativeFacts, unvisited.version,
      unvisited.merged, ⟨unvisited.fields.next, unvisited.fields.given⟩⟩

end RunM

/-- Seeds only enter: what they do not bear on, and what is indifferent to new versions, is preserved
by the seeding. -/
theorem Indifferent.seeding {motive : RunState → Prop} (indifferent : Indifferent motive)
    (unseeded : ∀ (state : RunState) (seeds : ExtTreeMap NodeId Facts), motive state →
      motive { state with tables := { state.tables with seeds } })
    (context : Context) (entry : NodeId) :
    RunM.Preserves motive (RunM.seeding context entry) := by
  refine RunM.preserves_seeding (fun _ _ => True) (fun _ _ => True.intro) ?_ ?_ entry
  · intro statement facts slot state value final holds _ run
    have minted : RunM.Preserves motive (RunM.seedVersion context statement facts slot) :=
      (indifferent.mint _ _ _).bind fun _ => (indifferent.editGraph _).bind fun _ => .pure _
    exact ⟨minted state value final holds run, True.intro⟩
  · intro node facts state final holds _ run
    cases run
    exact unseeded state _ holds

theorem Versioner.unvisited_start (config : Config) (body : Body) :
    Unvisited (start config body) := by
  refine ⟨rfl, rfl, rfl, fun expression => ExtTreeMap.getD_empty, fun key => ?_,
    ⟨(by decide : (-1 : Int) < 0), ?_⟩⟩
  · unfold Tables.merged? start Tables.fresh Tables.renew
    dsimp only
    split
    · exact ExtTreeMap.getElem?_empty
    · rfl
  · intro fields expression slot stored found
    unfold start Tables.fresh Tables.renew at stored
    dsimp only at stored
    split at stored
    · cases stored
      rw [ExtTreeMap.getElem?_empty] at found
      exact nomatch found
    · exact nomatch stored

/-- After the seeding of a run no node was visited yet. -/
theorem RunM.unvisited_seeded {config : Config} {body : Body} {entry : NodeId} {seeded : RunState}
    (seeds : seeding { config, body } entry (Versioner.start config body) = .ok () seeded) :
    Unvisited seeded :=
  preserves_unvisited _ entry _ _ _ (Versioner.unvisited_start config body) seeds

/-! ## Whole runs -/

namespace Versioner

variable {versioner : Versioner} {body : Body}

/-- A successful run versions the whole body, which is valid. -/
theorem run_ok (success : (versioner.run body).outcome = .ok ()) :
    ∃ final, body.validate = .ok () ∧
      RunM.versionAll { config := versioner.config, body } (start versioner.config body) =
        .ok () final ∧
      versioner.run body = finish versioner.config body final (.ok ()) := by
  cases valid : body.validate with
  | error fault =>
      rw [run_of_invalid valid] at success
      exact nomatch success
  | ok accepted =>
      rw [run_of_valid valid] at success ⊢
      cases whole : RunM.versionAll { config := versioner.config, body }
          (start versioner.config body) with
      | ok value final => exact ⟨final, rfl, rfl, rfl⟩
      | error fault final =>
          rw [whole] at success
          exact nomatch success

/-- A valid flow graph without an entry has no nodes. -/
theorem size_of_noEntry (valid : body.validate = .ok ()) (none : body.graph.entry = none) :
    body.graph.size = 0 := by
  unfold Body.validate FlowGraph.validate FlowGraph.fault? at valid
  by_cases empty : body.graph.nodes.isEmpty = true
  · exact Array.isEmpty_iff_size_eq_zero.1 empty
  · rw [if_neg empty, FlowGraph.entryFault?, none] at valid
    exact nomatch valid

private theorem settled_of_unvisited {context : Context} {state : RunState}
    (unvisited : Unvisited state) (empty : context.graph.size = 0) : Settled context state := by
  refine ⟨unvisited.settling, fun name known => ?_⟩
  rw [empty] at known
  exact absurd known (Nat.not_lt_zero name)

/-- A successful run of a body with an entry: the seeds, the rounds, and perhaps a live round. -/
structure Parts (versioner : Versioner) (body : Body) (seeded : RunState) (total : Nat)
    (settled final : RunState) : Prop where
  valid : body.validate = .ok ()
  result : versioner.run body = finish versioner.config body final (.ok ())
  seeds : ∃ entry, body.graph.entry = some entry ∧
    RunM.seeding { config := versioner.config, body } entry (start versioner.config body) =
      .ok () seeded
  unvisited : Unvisited seeded
  rounds : RunM.Rounds { config := versioner.config, body } seeded total ∅ settled
  positive : 0 < total
  few : total ≤ versioner.config.maxPasses
  live : versioner.config.has .liveRound = true →
    RunM.liveRound { config := versioner.config, body } settled = .ok () final
  dead : versioner.config.has .liveRound = false → final = settled

theorem parts_of_run (success : (versioner.run body).outcome = .ok ()) {entry : NodeId}
    (found : body.graph.entry = some entry) :
    ∃ seeded total settled final, Parts versioner body seeded total settled final := by
  rcases run_ok success with ⟨final, valid, whole, result⟩
  have entered : (Context.mk versioner.config body).graph.entry = some entry := found
  rcases RunM.versionAll_ok entered whole with
    ⟨seeded, total, settled, seeds, rounds, positive, few, live, dead⟩
  exact ⟨seeded, total, settled, final, valid, result, ⟨entry, found, seeds⟩,
    RunM.unvisited_seeded seeds, rounds, positive, few, live, dead⟩

/-- After the rounds of a run every node was visited. -/
theorem Parts.everywhere (parts : Parts versioner body seeded total settled final)
    (unshared : body.Unshared) :
    Settling { config := versioner.config, body } ∅ settled ∧
      ∀ name, name < body.graph.size → ∃ facts, settled.tables.inFacts[name]? = some facts := by
  have settling := RunM.settling_of_rounds unshared (.trivial _) parts.unvisited.settling trivial
    parts.rounds
  exact ⟨settling.1, settling.2.2 parts.positive⟩

/-- How a run ends: settled, keeping an invariant, and with what the rounds led to. -/
structure Ended (context : Context) (motive : RunState → Prop) (resting final : RunState) :
    Prop where
  settled : Settled context final
  holds : motive final
  alike : Alike resting final
  sameEntering : RunM.SameEntering resting final

theorem Parts.ended {motive : RunState → Prop} {seeded settled final : RunState} {total : Nat}
    (parts : Parts versioner body seeded total settled final) (regular : body.Regular)
    (invariant : RunM.Invariant { config := versioner.config, body } motive)
    (holds : motive seeded) :
    Ended { config := versioner.config, body } motive settled final := by
  have equations := RunM.settling_of_rounds regular.unshared invariant parts.unvisited.settling holds
    parts.rounds
  have done : Settled { config := versioner.config, body } settled :=
    ⟨equations.1, equations.2.2 parts.positive⟩
  cases round : versioner.config.has .liveRound with
  | true =>
      rcases RunM.settled_of_liveRound regular invariant done equations.2.1 (parts.live round) with
        ⟨lived, kept, alike, same⟩
      exact ⟨lived, kept, alike, same⟩
  | false =>
      rw [parts.dead round]
      exact ⟨done, equations.2.1, .refl _, .of_inFacts rfl⟩

/-- A run of a valid body without an entry only reports that, and visits nothing. -/
theorem run_of_noEntry (versioner : Versioner) (valid : body.validate = .ok ())
    (none : body.graph.entry = none) :
    ∃ final, Unvisited final ∧ Aside (start versioner.config body) final ∧
      versioner.run body = finish versioner.config body final (.ok ()) := by
  refine ⟨{ start versioner.config body with
    events := .nothingToDo :: (start versioner.config body).events }, ?_, ?_, ?_⟩
  · exact (unvisited_start versioner.config body).of_quiet
      (RunM.quietly_report .nothingToDo _ _ _ rfl)
  · exact .of_counted _ _ _
  · rw [run_of_valid valid]
    unfold RunM.versionAll Context.graph
    simp only [none, RunM.report_apply]
    rfl

/-- The state before the first round. Nothing enters a graph without an entry. -/
inductive Begins (config : Config) (body : Body) : RunState → Prop
  | bare (noEntry : body.graph.entry = none) : Begins config body (start config body)
  | seeded {entry : NodeId} {state : RunState} (isEntry : body.graph.entry = some entry)
      (seeds : RunM.seeding { config, body } entry (start config body) = .ok () state) :
      Begins config body state

/-- A successful run of a regular body ends settled, and keeps every invariant of visits. -/
theorem settled_of_begun {motive : RunState → Prop} (regular : body.Regular)
    (success : (versioner.run body).outcome = .ok ())
    (invariant : RunM.Invariant { config := versioner.config, body } motive)
    (begun : ∀ state, Begins versioner.config body state → motive state) :
    ∃ final, Settled { config := versioner.config, body } final ∧ motive final ∧
      versioner.run body = finish versioner.config body final (.ok ()) := by
  cases found : body.graph.entry with
  | none =>
      rcases run_ok success with ⟨-, valid, -, -⟩
      rcases run_of_noEntry versioner valid found with ⟨final, unvisited, aside, result⟩
      exact ⟨final, settled_of_unvisited unvisited (size_of_noEntry valid found),
        invariant.aside (begun _ (.bare found)) aside, result⟩
  | some entry =>
      rcases parts_of_run success found with ⟨seeded, total, settled, final, parts⟩
      rcases parts.seeds with ⟨entered, isEntry, seeds⟩
      have ended := parts.ended regular invariant (begun _ (.seeded isEntry seeds))
      exact ⟨final, ended.settled, ended.holds, parts.result⟩

/-- The same, when it does not matter what enters. -/
theorem settled_of_run {motive : RunState → Prop} (regular : body.Regular)
    (success : (versioner.run body).outcome = .ok ())
    (invariant : RunM.Invariant { config := versioner.config, body } motive)
    (begins : motive (start versioner.config body))
    (seeds : ∀ entry seeded, RunM.seeding { config := versioner.config, body } entry
      (start versioner.config body) = .ok () seeded → Unvisited seeded → motive seeded) :
    ∃ final, Settled { config := versioner.config, body } final ∧ motive final ∧
      versioner.run body = finish versioner.config body final (.ok ()) := by
  refine settled_of_begun regular success invariant fun state begun => ?_
  cases begun with
  | bare => exact begins
  | seeded isEntry entered => exact seeds _ _ entered (RunM.unvisited_seeded entered)

end Versioner

end SlotVersioning
