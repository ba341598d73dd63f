import SlotVersioning.Proofs.Slots.Passes

/-!
# Slots that stay still

When what enters every node is joined from what the edges bring of a slot, the slot has come to rest:
further passes change nothing of it, even while other slots still change (`Resting.pass_still`). So
two runs that pass after pass do the same to a slot as a third end with the same, no matter how
many passes each of them takes (`SlotView.EndsLike.same`). And a slot that goes to and fro between
two states never comes to rest (`PassesTo.not_joined`).
-/

namespace SlotVersioning

open Std

variable {view : SlotView} {context other : Context} {name : NodeId} {node : FlowNode}
  {live otherLive : Bool} {dirty dirtyAfter : DirtyNodes} {count : Nat}
  {start otherStart state before after final left right : RunState}

/-- What enters every node is what its edges bring of the slot and what enters from outside. -/
def SlotView.Joined (view : SlotView) (flow : FlowGraph) (state : RunState) : Prop :=
  ∀ name, name < flow.size → ∃ facts, state.tables.inFacts[name]? = some facts ∧
    state.tables.Joins flow name view.slot (facts.reaching view.slot)

theorem SlotView.Same.joined {flow : FlowGraph} (same : view.Same flow left right)
    (joined : view.Joined flow left) : view.Joined flow right := by
  intro name known
  rcases joined name known with ⟨facts, entering, joins⟩
  have inFacts : Facts.SameAt view.slot left.tables.inFacts[name]? right.tables.inFacts[name]? :=
    same.stores.inFacts name
  rw [entering] at inFacts
  cases otherEntering : right.tables.inFacts[name]? with
  | none =>
      rw [otherEntering] at inFacts
      exact nomatch inFacts
  | some others =>
      rw [otherEntering] at inFacts
      cases inFacts with
      | some reaching =>
          refine ⟨others, rfl, ?_⟩
          rw [← reaching]
          exact (same.joins name _).1 joins

/-- What is idle leaves the same stored. -/
private theorem SlotView.Same.idle {flow : FlowGraph} (same : view.Same flow left right)
    (idle : Idle live right final) : view.Same flow left final := by
  have stores : final.stores = right.stores :=
    idle.same (fun tables => RunState.stores { tables }) fun _ => rfl
  exact ⟨same.toAgrees.idle idle, stores ▸ same.stores⟩

namespace RunM

/-! ## At rest -/

/-- Storing again what entered a node changes nothing of the slot. -/
private theorem same_entered {flow : FlowGraph} (same : view.Same flow state state)
    {facts others : Facts} (stored : state.tables.inFacts[name]? = some facts)
    (reaching : facts.reaching view.slot = others.reaching view.slot) :
    view.Same flow state (entered state name others) where
  toAgrees := same.toAgrees.beside (.of_stores _ _ _ _ _)
  stores := by
    refine { same.stores with inFacts := ?_ }
    have inserted := Facts.SameAt.insert same.stores.inFacts reaching name
    rw [show state.stores.inFacts.insert name facts = state.stores.inFacts from
      insert_stored stored] at inserted
    exact inserted

/-- A visit of a node changes nothing of a slot at rest. -/
private theorem Resting.visit_still (matching : context.Matches view context)
    (resting : Resting context dirty before) (joined : view.Joined context.graph before)
    (same : view.Same context.graph before before)
    (found : context.graph.node? name = some node)
    (run : RunM.visit context live dirty (node, name) before = .ok dirtyAfter after) :
    view.Same context.graph before after := by
  rcases joined name (lt_size_of_node? found) with ⟨facts, stored, joins⟩
  rcases resting.departs_idle found stored live with
    ⟨idleOutcome, idled, idlyEvaluates, unchanged, idle⟩
  rcases visit_steps run with
    ⟨others, middle, outcome, last, changed, arrives, evaluates, leaves, -⟩
  rcases arrive_ok matching.noShortPaths arrives with ⟨rfl, otherJoins⟩
  -- The node is evaluated from what is stored before it, and compared with what really happens.
  have reaching := joins_unique joins (otherJoins view.slot)
  have enters := same_entered same stored reaching
  have evaluated :=
    (evaluateNode_meets matching found reaching enters).of_runs idlyEvaluates evaluates
  have departs := leaving_sameAt context context node evaluated.1
  have left := (leave_meets matching departs.1 departs.2 evaluated.2).of_runs unchanged leaves
  exact (same.idle idle).trans left

/-- A pass changes nothing of a slot at rest. -/
theorem Resting.pass_still (regular : context.body.Regular)
    (matching : context.Matches view context) (resting : Resting context dirty state)
    (joined : view.Joined context.graph state) (same : view.Same context.graph state state)
    (run : pass context live dirty state = .ok dirtyAfter final) :
    view.Same context.graph state final := by
  refine (pass_induction (motive := fun _ dirty reached =>
    Resting context dirty reached ∧ view.Same context.graph state reached) ?_ run
    ⟨resting, same⟩).2
  rintro name node dirty dirtyAfter before after found ⟨resting, same⟩ visits
  have still := resting.visit_still matching (same.joined joined) same.refl_right found
    visits
  exact ⟨resting.visit regular found visits, same.trans still⟩

/-! ## Passes in a row -/

/-- A number of passes in a row, without live facts. -/
def passes (context : Context) : (count : Nat) → RunM DirtyNodes
  | 0 => pure ∅
  | count + 1 => do
      let dirty ← passes context count
      pass context false dirty

private theorem resting_of_passes (regular : context.body.Regular)
    (resting : Resting context ∅ start) (run : passes context count start = .ok dirty state) :
    Resting context dirty state := by
  induction count generalizing dirty state with
  | zero =>
      rcases pure_ok run with ⟨rfl, rfl⟩
      exact resting
  | succ count induction =>
      rcases bind_ok run with ⟨dirtyBefore, before, earlier, last⟩
      exact pass_induction (motive := fun _ dirty state => Resting context dirty state)
        (fun name node dirty dirtyAfter before after found resting visits =>
          resting.visit regular found visits) last (induction earlier)

/-- Once a slot is at rest no number of passes changes anything of it. -/
private theorem passes_still (regular : context.body.Regular)
    (matching : context.Matches view context) (resting : Resting context ∅ start)
    (run : passes context count start = .ok dirty state) (joined : view.Joined context.graph state)
    (same : view.Same context.graph state state) (more : Nat)
    (later : passes context (count + more) start = .ok dirtyAfter final) :
    view.Same context.graph state final := by
  induction more generalizing dirtyAfter final with
  | zero =>
      rw [Nat.add_zero, run] at later
      cases later
      exact same
  | succ more induction =>
      rcases bind_ok later with ⟨dirtyBefore, before, earlier, last⟩
      have stays := induction earlier
      have still := (resting_of_passes regular resting earlier).pass_still regular matching
        (stays.joined joined) stays.refl_right last
      exact stays.trans still

/-! ## Runs beside passes -/

/-- The passes lead to a state that shows the same. -/
def PassesTo (view : SlotView) (context : Context) (start : RunState) (count : Nat)
    (state : RunState) : Prop :=
  Reaches (passes context count) start fun _ reached => view.Same context.graph state reached

/-- As many passes lead to states that show the same. -/
theorem PassesTo.same (first : PassesTo view context start count left)
    (second : PassesTo view context start count right) : view.Same context.graph left right := by
  rcases first with ⟨_, _, run, same⟩
  exact same.trans (Reaches.of_run second run).symm

theorem PassesTo.congr (reached : PassesTo view context start count left)
    (same : view.Same context.graph right left) : PassesTo view context start count right :=
  reached.imp fun _ _ shown => same.trans shown

section

variable (matching : context.Matches view other)

include matching

theorem PassesTo.pass {begun ended : RunState} (reached : PassesTo view other start count state)
    (counted : Aside state begun) (run : pass context live dirty begun = .ok dirtyAfter ended)
    (reported : Aside ended final) : PassesTo view other start (count + 1) final := by
  refine reached.bind fun otherDirty middle same => ?_
  rw [matching.graph] at same ⊢
  refine (Reaches.of_run (pass_meets matching (same.aside_left counted)) run).imp ?_
  exact fun _ _ same => same.aside_left reported

/-- Rounds do to the slot what as many passes of a matching context do. -/
theorem Rounds.passesTo (same : view.Same context.graph start otherStart)
    (rounds : Rounds context start count dirty state) :
    PassesTo view other otherStart count state := by
  induction rounds with
  | none => exact .pure (matching.graph ▸ same)
  | more earlier unsettled last induction =>
      rcases round_ok last with ⟨begun, ended, counted, passes, reported⟩
      exact induction.pass matching counted passes reported

theorem PassesTo.liveRound (reached : PassesTo view other start count state)
    (run : RunM.liveRound context state = .ok () final) :
    PassesTo view other start (count + 1) final := by
  rcases liveRound_ok run with ⟨begun, ended, dirtyAfter, counted, passes, reported⟩
  exact reached.pass matching counted passes reported

end

section

variable (matching : context.Matches view context) {more : Nat}

include matching

/-- Where different numbers of passes lead to the same, so do those with one more. -/
private theorem PassesTo.succ (first : PassesTo view context start count state)
    (second : PassesTo view context start more state) :
    ∃ next, PassesTo view context start (count + 1) next ∧
      PassesTo view context start (more + 1) next := by
  rcases @pass_meets view context context false false ∅ ∅ _ _ matching (first.same first) with
    ⟨dirty, next, run, -⟩
  have before : Aside state state := .of_counted state state.tables.passes state.events
  have after : Aside next next := .of_counted next next.tables.passes next.events
  exact ⟨next, first.pass matching before run after, second.pass matching before run after⟩

/-- Passes that come back to what they showed before go on as before. -/
theorem PassesTo.recurs (first : PassesTo view context start count state)
    (second : PassesTo view context start more state) (further : Nat) :
    ∃ later, PassesTo view context start (count + further) later ∧
      PassesTo view context start (more + further) later := by
  induction further with
  | zero => exact ⟨state, first, second⟩
  | succ further induction =>
      rcases induction with ⟨middle, earlier, otherwise⟩
      exact earlier.succ matching otherwise

/-- A slot that went to and fro goes to and fro for ever. -/
private theorem PassesTo.turns (begun : PassesTo view context start count left)
    (gone : PassesTo view context start (count + 1) right)
    (returned : PassesTo view context start (count + 2) left) (times : Nat) :
    PassesTo view context start (count + 2 * times) left ∧
      PassesTo view context start (count + (2 * times + 1)) right := by
  induction times with
  | zero => exact ⟨begun, gone⟩
  | succ times induction =>
      have twice : 2 * (times + 1) = 2 + 2 * times := by omega
      rcases begun.recurs matching returned (2 * times) with ⟨back, before, after⟩
      rcases begun.recurs matching returned (2 * times + 1) with ⟨there, beforehand, afterwards⟩
      rw [Nat.add_assoc] at after afterwards
      rw [twice, Nat.add_assoc 2]
      exact ⟨after.congr (induction.1.same before), afterwards.congr (induction.2.same beforehand)⟩

end

/-- After some passes the slot is at rest, and after as many or more it is as in the given state. -/
inductive EndsLike (view : SlotView) (context : Context) (start final : RunState) : Prop
  | rested {count more : Nat} {settled : RunState}
      (reached : PassesTo view context start count settled)
      (joined : view.Joined context.graph settled)
      (ended : PassesTo view context start (count + more) final)

section

variable (regular : context.body.Regular) (matching : context.Matches view context)
  (resting : Resting context ∅ start)

include regular matching resting

theorem PassesTo.still (reached : PassesTo view context start count state)
    (joined : view.Joined context.graph state) (more : Nat)
    (ended : PassesTo view context start (count + more) final) :
    view.Same context.graph state final := by
  rcases reached with ⟨dirty, middle, run, same⟩
  rcases ended with ⟨dirtyAfter, last, later, sameAfter⟩
  have still := passes_still regular matching resting run (same.joined joined) same.refl_right
    more later
  exact (same.trans still).trans sameAfter.symm

/-- A slot that goes to and fro never comes to rest. -/
theorem PassesTo.not_joined (begun : PassesTo view context start count left)
    (gone : PassesTo view context start (count + 1) right)
    (returned : PassesTo view context start (count + 2) left)
    (apart : ¬ view.Same context.graph left right) {total : Nat}
    (reached : PassesTo view context start total state) : ¬ view.Joined context.graph state := by
  intro joined
  have here : count + 2 * total = total + (count + total) := by omega
  have there : count + (2 * total + 1) = total + (count + total + 1) := by omega
  rcases begun.turns matching gone returned total with ⟨back, forth⟩
  rw [here] at back
  rw [there] at forth
  have still := reached.still regular matching resting joined _ back
  exact apart (still.symm.trans (reached.still regular matching resting joined _ forth))

/-- All states that passes lead to in this way show the same. -/
theorem EndsLike.same (first : EndsLike view context start left)
    (second : EndsLike view context start right) : view.Same context.graph left right := by
  rcases first with @⟨count, more, settled, reached, joined, ended⟩
  rcases second with @⟨otherCount, otherMore, otherSettled, otherReached, otherJoined, otherEnded⟩
  rcases Nat.le_total count otherCount with fewer | fewer
  · rcases Nat.exists_eq_add_of_le fewer with ⟨gap, rfl⟩
    rw [Nat.add_assoc] at otherEnded
    have still := reached.still regular matching resting joined more ended
    exact still.symm.trans (reached.still regular matching resting joined _ otherEnded)
  · rcases Nat.exists_eq_add_of_le fewer with ⟨gap, rfl⟩
    rw [Nat.add_assoc] at ended
    have still := otherReached.still regular matching resting otherJoined otherMore otherEnded
    exact (otherReached.still regular matching resting otherJoined _ ended).symm.trans still

end

end RunM

end SlotVersioning
