import SlotVersioning.Proofs.Pass.Guards
import SlotVersioning.Proofs.Pass.Tireless
import SlotVersioning.Proofs.Pass.Upholding
import SlotVersioning.Proofs.Pass.Verdicts

/-!
# Forward graphs

Every round counts one pass, and so does the live round (`RunM.passes_of_rounds`,
`RunM.liveRound_passes`). Where all edges lead to later nodes, one round is enough: what a visit
makes dirty is visited later in the same pass, whatever the visit does (`RunM.Ahead.visit`), so no
node is dirty after it.
-/

namespace SlotVersioning

open Std

/-- All edges lead from a node to a later one. -/
def FlowGraph.Forward (graph : FlowGraph) : Prop :=
  ∀ source target, target ∈ graph.successors source → source < target

private theorem FlowGraph.forward_iff {graph : FlowGraph} :
    graph.Forward ↔ ∀ source < graph.size, ∀ target ∈ graph.successors source, source < target := by
  refine ⟨fun forward source _ target edge => forward source target edge,
    fun forward source target edge => ?_⟩
  have known : source < graph.size := by
    by_contra unknown
    unfold successors node? at edge
    rw [Array.getElem?_eq_none (Nat.not_lt.1 unknown)] at edge
    exact nomatch edge
  exact forward source known target edge

instance (graph : FlowGraph) : Decidable graph.Forward :=
  decidable_of_iff _ FlowGraph.forward_iff.symm

namespace RunM

variable {context : Context} {live : Bool} {node : FlowNode} {name : NodeId}
  {dirty dirtyAfter : DirtyNodes} {before after state final : RunState}

/-! ## Counted passes -/

theorem indifferent_passes (count : Nat) :
    Indifferent fun state => state.tables.passes = count :=
  fun _ _ _ _ _ _ _ holds => holds

private theorem act_passes {site : Site} {place : Visit} {facts result : Facts}
    (run : place.act site facts state = .ok result final) :
    final.tables.passes = state.tables.passes := by
  cases target : place.site? with
  | some visited =>
      exact (indifferent_passes state.tables.passes).act (fun _ _ _ holds => holds) target
        state result final rfl run
  | none =>
      cases act_ok run with
      | read | define | assign | increment => exact nomatch target
      | field request =>
          cases request
          dsimp only
          split <;> rfl
      | unversionedField | clobber => rfl

/-- The visit of a node counts no pass. -/
private theorem visit_passes (found : context.graph.node? name = some node)
    (run : visit context live dirty (node, name) before = .ok dirtyAfter after) :
    after.tables.passes = before.tables.passes := by
  rcases visit_parts found run with
    ⟨facts, enters, outcome, middle, changed, arrival, course, leaves⟩
  rcases arrive_parts arrival with ⟨joined, -, -, rfl⟩
  have evaluated := @Course.run_related _ _ _ _ _ _
    (fun state final => final.tables.passes = state.tables.passes) (fun _ => rfl)
    (fun first second => second.trans first) (fun _ _ _ _ _ acts => act_passes acts) course
  rw [(leave_ok leaves).tables]
  exact evaluated

theorem pass_passes (run : pass context live dirty state = .ok dirtyAfter final) :
    final.tables.passes = state.tables.passes :=
  pass_induction (motive := fun _ _ other => other.tables.passes = state.tables.passes)
    (fun _ _ _ _ _ _ found holds visits => (visit_passes found visits).trans holds) run rfl

private theorem round_passes (run : round context dirty state = .ok dirtyAfter final) :
    final.tables.passes = state.tables.passes + 1 := by
  unfold round at run
  rw [bind_eq (countPass_apply state)] at run
  rcases bind_ok run with ⟨_, after, passes, run⟩
  rw [bind_eq (tables_apply _), bind_eq (report_apply _ _)] at run
  rcases pure_ok run with ⟨-, rfl⟩
  exact pass_passes passes

/-- Every round counts one pass. -/
theorem passes_of_rounds {count : Nat} (rounds : Rounds context before count dirty after) :
    after.tables.passes = before.tables.passes + count := by
  induction rounds with
  | none => rfl
  | more earlier unsettled last induction => rw [round_passes last, induction, Nat.add_assoc]

theorem liveRound_passes (run : liveRound context state = .ok () final) :
    final.tables.passes = state.tables.passes + 1 := by
  rcases liveRound_dominated (countPass_apply state) run with ⟨after, _, _, passes, rfl⟩
  exact pass_passes passes

private theorem seeding_passes {entry : NodeId} (run : seeding context entry state = .ok () final) :
    final.tables.passes = state.tables.passes :=
  (indifferent_passes state.tables.passes).seeding (fun _ _ holds => holds) context entry
    state () final rfl run

/-! ## Dirty nodes -/

/-- Only nodes from `name` on are dirty. -/
def Ahead (context : Context) (name : NodeId) (dirty : DirtyNodes) : Prop :=
  ∀ other ∈ dirty, name ≤ other ∧ other < context.graph.size

private theorem visit_dirtied
    (run : visit context live dirty (node, name) before = .ok dirtyAfter after) :
    ∃ changed, dirtyAfter = dirtied node name changed dirty := by
  rcases visit_steps run with ⟨_, _, _, _, changed, -, -, -, dirties⟩
  exact ⟨_, dirties⟩

namespace Ahead

private theorem empty (context : Context) (name : NodeId) : Ahead context name ∅ :=
  fun _ member => absurd member ExtTreeSet.not_mem_empty

/-- After the last node of the graph there is none that could be dirty. -/
private theorem eq_empty (ahead : Ahead context context.graph.size dirty) : dirty = ∅ := by
  apply ExtTreeSet.ext_mem
  intro other
  refine iff_of_false (fun member => ?_) ExtTreeSet.not_mem_empty
  exact Nat.not_lt.2 (ahead other member).1 (ahead other member).2

variable (forward : context.graph.Forward) (valid : context.body.validate = .ok ())

include forward valid

/-- The visited node is clean afterwards, and the nodes that become dirty are later ones. -/
theorem visit (found : context.graph.node? name = some node) (ahead : Ahead context name dirty)
    (run : visit context live dirty (node, name) before = .ok dirtyAfter after) :
    Ahead context (name + 1) dirtyAfter := by
  rcases visit_dirtied run with ⟨changed, rfl⟩
  intro other member
  rcases mem_of_dirtied member with ⟨earlier, different⟩ | ⟨-, successor⟩
  · have bounds := ahead other earlier
    exact ⟨Nat.lt_of_le_of_ne bounds.1 (Ne.symm different), bounds.2⟩
  · have edge : other ∈ context.graph.successors name := by
      rw [FlowGraph.successors_of_node found]
      exact successor
    exact ⟨forward name other edge, FlowGraph.successor_lt_size valid found other successor⟩

private theorem pass (ahead : Ahead context 0 dirty)
    (run : pass context live dirty state = .ok dirtyAfter final) : dirtyAfter = ∅ :=
  (pass_induction (motive := fun name dirty _ => Ahead context name dirty)
    (fun _ _ _ _ _ _ found ahead visits => visit forward valid found ahead visits) run
    ahead).eq_empty

/-- There is at most one round, after which no node is dirty. -/
private theorem rounds {count : Nat} (rounds : Rounds context before count dirty after) :
    dirty = ∅ ∧ count ≤ 1 := by
  induction rounds with
  | none => exact ⟨rfl, Nat.zero_le 1⟩
  | @more count _ _ _ _ earlier unsettled last induction =>
      rcases round_ok last with ⟨begun, done, -, passes, -⟩
      have clean := induction.1
      subst clean
      have first : count = 0 := by
        by_contra later
        exact nomatch unsettled later
      rw [first]
      exact ⟨pass forward valid (empty context 0) passes, Nat.le_refl 1⟩

end Ahead

end RunM

/-! ## Whole runs -/

namespace Versioner

variable {versioner : Versioner} {body : Body}

/-- A run counts its rounds, and the live round. -/
private theorem Parts.counted {seeded settled final : RunState} {total : Nat}
    (parts : Parts versioner body seeded total settled final) :
    (versioner.run body).versioner.tables.passes =
      if versioner.config.has .liveRound then total + 1 else total := by
  rcases parts.seeds with ⟨entry, -, seeds⟩
  have begun : seeded.tables.passes = 0 := RunM.seeding_passes seeds
  have counted := RunM.passes_of_rounds parts.rounds
  rw [begun, Nat.zero_add] at counted
  rw [parts.result]
  cases round : versioner.config.has .liveRound with
  | true => exact (RunM.liveRound_passes (parts.live round)).trans (by rw [counted]; rfl)
  | false => exact (congrArg (·.tables.passes) (parts.dead round)).trans counted

/-- Where all edges lead to later nodes, a run does not run out of passes, and one round is enough
for it. -/
theorem passes_of_forward (accepted : versioner.config.validate = .ok ())
    (forward : body.graph.Forward) :
    (∀ passes, (versioner.run body).outcome ≠ .error (.notConverged passes)) ∧
      ((versioner.run body).outcome = .ok () → 0 < body.graph.size →
        (versioner.run body).versioner.tables.passes =
          if versioner.config.has .liveRound then 2 else 1) := by
  have leads : (Context.mk versioner.config body).graph.Forward := forward
  constructor
  · intro passes exhausted
    rcases exhausted_of_run exhausted with ⟨_, _, dirty, _, valid, -, -, rounds, unsettled⟩
    have clean := (RunM.Ahead.rounds leads valid rounds).1
    subst clean
    exact nomatch unsettled (Config.maxPasses_ne_zero accepted)
  · intro success nodes
    rcases run_ok success with ⟨-, valid, -, -⟩
    rcases FlowGraph.entry_lt_size valid nodes with ⟨entry, found, -⟩
    rcases parts_of_run success found with ⟨seeded, total, settled, final, parts⟩
    have few := (RunM.Ahead.rounds leads valid parts.rounds).2
    have once : total = 1 := Nat.le_antisymm few parts.positive
    rw [parts.counted, once]

theorem passes_of_forward_nesting : Body.nesting.graph.Forward ∧
    (Config.plain.versioner.run .nesting).versioner.tables.passes = 1 := by
  have forward : Body.nesting.graph.Forward := by decide
  have succeeds : (Config.plain.versioner.run .nesting).outcome = .ok () := by decide +kernel
  exact ⟨forward, (@passes_of_forward Config.plain.versioner .nesting rfl forward).2 succeeds
    (by decide)⟩

end Versioner

end SlotVersioning
