import SlotVersioning.Proofs.Flow.References
import SlotVersioning.Proofs.Pass.Extending
import SlotVersioning.Proofs.Pass.Settled

/-!
# Balanced states

In a body whose expressions are used in one place, what is stored after a node is what its course
transfers from what is stored before it (`Balanced`), fields included. It depends on the versions at
the sites of the node and on the slots of fields, and these are written at the node alone. So as
long as the same enters a node and its names stay, nothing new is stored after it.
-/

namespace SlotVersioning

open Std Course

/-- What is stored after nodes is transferred from what is stored before them, under the names that
are given now or at any later time at which they are the same there. -/
structure Balanced (context : Context) (state : RunState) : Prop where
  recorded : context.config.has .fieldVersions = true → state.tables.fields.isSome
  onTrue : ∀ (name : NodeId) (facts : Facts), state.tables.inFacts[name]? = some facts →
    ∀ later, KeepsAt (context.body.course name).sites state later →
      state.tables.outFacts[name]? = some (RunM.transferred context later name facts).1
  onFalse : ∀ (name : NodeId) (facts : Facts), state.tables.inFacts[name]? = some facts →
    (context.graph.negativeBranch? name).isSome →
    ∀ later, KeepsAt (context.body.course name).sites state later →
      state.tables.negativeFacts[name]? = some (RunM.transferred context later name facts).2
  noBranch : ∀ name, context.graph.negativeBranch? name = none →
    state.tables.negativeFacts[name]? = none

/-- What edges bring is transferred from what entered their source, under the names that are given
now or at any later time at which they are the same there. -/
theorem Balanced.brought {context : Context} {state later : RunState}
    (balanced : Balanced context state) {source : NodeId} {facts : Facts}
    (stored : state.tables.inFacts[source]? = some facts)
    (kept : KeepsAt (context.body.course source).sites state later) (target : NodeId)
    (slot : Slot) :
    state.tables.brought context.graph source target slot =
      (if context.graph.negativeBranch? source = some target then
        (RunM.transferred context later source facts).2
      else (RunM.transferred context later source facts).1).reaching slot := by
  unfold Tables.brought Tables.edgeFacts?
  split
  · next negative =>
      rw [balanced.onFalse source facts stored (by rw [negative]; rfl) later kept, Option.getD_some]
  · rw [balanced.onTrue source facts stored later kept, Option.getD_some]

theorem Balanced.aside {context : Context} {before after : RunState}
    (balanced : Balanced context before) (aside : Aside before after) : Balanced context after := by
  have keeps {sites : List ExprId} {later : RunState} (kept : KeepsAt sites after later) :
      KeepsAt sites before later := by
    refine ⟨(KeepsFields.of_fields aside.fields).trans kept.toKeepsFields, ?_⟩
    rw [← aside.version]
    exact kept.version
  refine ⟨?_, ?_, ?_, ?_⟩
  · rw [aside.fields]
    exact balanced.recorded
  · rw [aside.inFacts, aside.outFacts]
    exact fun name facts entering later kept =>
      balanced.onTrue name facts entering later (keeps kept)
  · rw [aside.inFacts, aside.negativeFacts]
    exact fun name facts entering branch later kept =>
      balanced.onFalse name facts entering branch later (keeps kept)
  · rw [aside.negativeFacts]
    exact balanced.noBranch

/-- As long as no node was visited, there is nothing to balance. -/
theorem Unvisited.balanced {context : Context} {state : RunState} (unvisited : Unvisited state)
    (recorded : context.config.has .fieldVersions = true → state.tables.fields.isSome) :
    Balanced context state :=
  ⟨recorded, fun _ _ entering => (unvisited.not_entering entering).elim,
    fun _ _ entering => (unvisited.not_entering entering).elim,
    fun name _ => (unvisited.not_leaving name).2⟩

namespace RunM

variable {context : Context} {live : Bool} {node : FlowNode} {name : NodeId} {facts : Facts}
  {log : List (Visit × Facts)} {outcome : OutcomeFacts} {changed : Bool} {dirty : DirtyNodes}
  {before middle after later : RunState}

namespace Visited

variable (visited : Visited context live node name facts log outcome changed before middle after)

include visited

theorem keepsFields : KeepsFields before after := by
  have enters : KeepsFields before (entered before name facts) := .of_fields rfl
  have leaves : KeepsFields middle after := .of_fields (by rw [visited.left.tables])
  exact (enters.trans (Course.run_keepsFields visited.run)).trans leaves

/-- What leaves the node is transferred from what enters it. -/
private theorem leaves_transferred (unshared : context.body.Unshared)
    (found : context.graph.node? name = some node)
    (recorded : context.config.has .fieldVersions = true → before.tables.fields.isSome)
    (kept : KeepsAt (context.body.course name).sites after later) :
    ((leaving context node outcome).ifTrue, (leaving context node outcome).ifFalse) =
      transferred context later name facts := by
  have keeps : KeepsAt (context.body.course name).sites middle later := by
    have leaves : KeepsFields middle after := .of_fields (by rw [visited.left.tables])
    refine ⟨leaves.trans kept.toKeepsFields, fun expression member => ?_⟩
    rw [kept.version expression member, visited.version_after]
  have carried : outcome.branches =
      (context.body.course name).transfer context.config later facts :=
    Course.run_transfer_of_nodup visited.run (unshared.nodup_sites name) recorded keeps
  have departs := leaving_departing found outcome
  unfold transferred
  rw [departs.1, departs.2, ← carried]
  rfl

/-- At other nodes the names are kept. -/
private theorem keepsAt_other (unshared : context.body.Unshared) {other : NodeId}
    (different : other ≠ name) (kept : KeepsAt (context.body.course other).sites after later) :
    KeepsAt (context.body.course other).sites before later := by
  refine ⟨visited.keepsFields.trans kept.toKeepsFields, fun expression member => ?_⟩
  rw [kept.version expression member]
  exact visited.version_other (unshared.sites_apart different expression member)

theorem balanced (unshared : context.body.Unshared)
    (found : context.graph.node? name = some node) (settling : Settling context dirty before)
    (balanced : Balanced context before) : Balanced context after where
  recorded := fun versioned => visited.keepsFields.recorded (balanced.recorded versioned)
  onTrue := by
    refine visited.forall_stored ?_ ?_
    · intro later kept
      rw [visited.left.out,
        ← visited.leaves_transferred unshared found balanced.recorded kept]
    · intro other stored different entering later kept
      rw [visited.left.otherOut other different, visited.outFacts_middle]
      exact balanced.onTrue other stored entering later
        (visited.keepsAt_other unshared different kept)
  onFalse := by
    refine visited.forall_stored ?_ ?_
    · intro branch later kept
      have stored : middle.tables.outFacts[name]? ≠ none →
          middle.tables.negativeFacts[name]? ≠ none := by
        rw [visited.outFacts_middle, visited.negativeFacts_middle]
        exact settling.stored name branch
      rw [visited.left.negative branch stored,
        ← visited.leaves_transferred unshared found balanced.recorded kept]
    · intro other stored different entering branch later kept
      rw [visited.left.otherNegative other different, visited.negativeFacts_middle]
      exact balanced.onFalse other stored entering branch later
        (visited.keepsAt_other unshared different kept)
  noBranch := by
    intro other noBranch
    by_cases here : other = name
    · rw [here] at noBranch ⊢
      rw [visited.left.noBranch noBranch, visited.negativeFacts_middle]
      exact balanced.noBranch name noBranch
    · rw [visited.left.otherNegative other here, visited.negativeFacts_middle]
      exact balanced.noBranch other noBranch

end Visited

theorem invariant_balanced (unshared : context.body.Unshared) :
    Invariant context (Balanced context) where
  visit := fun found settling balanced visited =>
    visited.balanced unshared found settling balanced
  aside := fun balanced aside => balanced.aside aside

/-! ## Passes that change nothing -/

/-- The stores after the nodes, as two states have them. -/
structure SameLeaving (node : NodeId) (before after : RunState) : Prop where
  outFacts : after.tables.outFacts[node]? = before.tables.outFacts[node]?
  negativeFacts : after.tables.negativeFacts[node]? = before.tables.negativeFacts[node]?

/-- Something else is stored after a node that made its successors dirty. -/
private theorem Visited.not_sameLeaving
    (visited : Visited context live node name facts log outcome changed before middle after)
    (noBranch : context.graph.negativeBranch? name = none →
      before.tables.negativeFacts[name]? = none) (new : changed = true) :
    ¬ SameLeaving name before after := by
  intro same
  have differ := visited.left.differs new
  unfold RunM.differs at differ
  rw [visited.outFacts_middle, visited.negativeFacts_middle, Bool.or_eq_true, bne_iff_ne] at differ
  rcases differ with out | negative
  · rw [← same.outFacts] at out
    exact out visited.left.out
  · cases branch : context.graph.negativeBranch? name with
    | none =>
        rw [noBranch branch] at negative
        exact nomatch negative
    | some target =>
        have stored : middle.tables.outFacts[name]? ≠ none →
            middle.tables.negativeFacts[name]? ≠ none := by
          intro _ absent
          rw [visited.negativeFacts_middle] at absent
          rw [absent] at negative
          exact nomatch negative
        have leaves := visited.left.negative (by rw [branch]; rfl) stored
        rw [← same.negativeFacts, leaves] at negative
        simp at negative

theorem SameLeaving.trans {node : NodeId} {first second third : RunState}
    (left : SameLeaving node first second) (right : SameLeaving node second third) :
    SameLeaving node first third :=
  ⟨right.outFacts.trans left.outFacts, right.negativeFacts.trans left.negativeFacts⟩

theorem SameLeaving.symm {node : NodeId} {before after : RunState}
    (same : SameLeaving node before after) : SameLeaving node after before :=
  ⟨same.outFacts.symm, same.negativeFacts.symm⟩

/-- A pass that began at `start` has visited the nodes below `count`: unless something new was
stored after one of these, the nodes that are dirty are still to be visited. -/
structure Sweeping (context : Context) (start : RunState) (count : Nat) (dirty : DirtyNodes)
    (reached : RunState) : Prop where
  settling : Settling context dirty reached
  inside : ∀ other ∈ dirty, other < context.graph.size
  waiting : ∀ other, count ≤ other → SameLeaving other start reached
  clean : (∃ other < count, ¬ SameLeaving other start reached) ∨ ∀ other ∈ dirty, count ≤ other

namespace Sweeping

variable {start : RunState}

/-- One more visit. -/
private theorem visited (sweeping : Sweeping context start name dirty before)
    (unshared : context.body.Unshared) (valid : context.body.validate = .ok ())
    (noBranch : ∀ name, context.graph.negativeBranch? name = none →
      start.tables.negativeFacts[name]? = none)
    (found : context.graph.node? name = some node)
    (visited : Visited context live node name facts log outcome changed before middle after) :
    Sweeping context start (name + 1) (dirtied node name changed dirty) after := by
  have kept {other : NodeId} (different : other ≠ name) : SameLeaving other before after := by
    refine ⟨?_, ?_⟩
    · rw [visited.left.otherOut other different, visited.outFacts_middle]
    · rw [visited.left.otherNegative other different, visited.negativeFacts_middle]
  refine ⟨visited.settling unshared found sweeping.settling, fun other member => ?_,
    fun other above => ?_, ?_⟩
  · rcases mem_of_dirtied member with ⟨earlier, -⟩ | ⟨-, successor⟩
    · exact sweeping.inside other earlier
    · exact FlowGraph.successor_lt_size valid found other successor
  · exact (sweeping.waiting other (Nat.le_of_succ_le above)).trans (kept (Nat.ne_of_gt above))
  · rcases sweeping.clean with ⟨other, below, differs⟩ | outside
    · exact .inl ⟨other, Nat.lt_succ_of_lt below, fun same =>
        differs (same.trans (kept (Nat.ne_of_lt below)).symm)⟩
    · cases new : changed with
      | true =>
          have here := sweeping.waiting name (Nat.le_refl name)
          refine .inl ⟨name, Nat.lt_succ_self name, fun same => ?_⟩
          apply visited.not_sameLeaving (fun branch => ?_) new (here.symm.trans same)
          rw [here.negativeFacts]
          exact noBranch name branch
      | false =>
          refine .inr fun other member => ?_
          rcases mem_of_dirtied member with ⟨earlier, different⟩ | ⟨impossible, -⟩
          · exact Nat.lt_of_le_of_ne (outside other earlier) fun same => different same.symm
          · exact nomatch impossible

end Sweeping

/-- When nothing new is stored after the nodes, none of them is dirty after the pass. -/
private theorem isEmpty_of_pass (unshared : context.body.Unshared)
    (valid : context.body.validate = .ok ()) {state final : RunState} {dirtyAfter : DirtyNodes}
    (settling : Settling context dirty state) (balanced : Balanced context state)
    (inside : ∀ other ∈ dirty, other < context.graph.size)
    (run : pass context live dirty state = .ok dirtyAfter final) :
    (∀ other ∈ dirtyAfter, other < context.graph.size) ∧
      ((∀ node < context.graph.size, SameLeaving node state final) → dirtyAfter.isEmpty) := by
  have swept : Sweeping context state context.graph.size dirtyAfter final := by
    refine pass_induction ?_ run
      ⟨settling, inside, fun _ _ => ⟨rfl, rfl⟩, .inr fun other _ => Nat.zero_le other⟩
    intro name node dirty dirtyAfter before after found sweeping visits
    rcases visit_ok unshared sweeping.settling.fields found visits with
      ⟨facts, log, outcome, changed, middle, visited, rfl⟩
    exact sweeping.visited unshared valid balanced.noBranch found visited
  refine ⟨swept.inside, fun same => ?_⟩
  rcases swept.clean with ⟨other, known, differs⟩ | outside
  · exact absurd (same other known) differs
  · by_contra left
    rcases exists_mem_of_isEmpty (Bool.eq_false_iff.2 left) with ⟨other, member⟩
    exact absurd (swept.inside other member) (Nat.not_lt.2 (outside other member))

/-- The same for a round. -/
theorem isEmpty_of_round (unshared : context.body.Unshared)
    (valid : context.body.validate = .ok ()) {state final : RunState} {dirtyAfter : DirtyNodes}
    (settling : Settling context dirty state) (balanced : Balanced context state)
    (inside : ∀ other ∈ dirty, other < context.graph.size)
    (run : round context dirty state = .ok dirtyAfter final) :
    (∀ other ∈ dirtyAfter, other < context.graph.size) ∧
      ((∀ node < context.graph.size, SameLeaving node state final) → dirtyAfter.isEmpty) := by
  rcases round_ok run with ⟨begun, ended, counted, passes, reported⟩
  have passed := isEmpty_of_pass unshared valid (settling.aside counted) (balanced.aside counted)
    inside passes
  refine ⟨passed.1, fun same => passed.2 fun node known => ?_⟩
  have begins : SameLeaving node begun state := by
    refine ⟨?_, ?_⟩
    · rw [counted.outFacts]
    · rw [counted.negativeFacts]
  have ends : SameLeaving node final ended := by
    refine ⟨?_, ?_⟩
    · rw [reported.outFacts]
    · rw [reported.negativeFacts]
  exact (begins.trans (same node known)).trans ends

/-- Dirty nodes are nodes of the graph. -/
theorem Rounds.inside {start state : RunState} {count : Nat}
    (rounds : Rounds context start count dirty state) (unshared : context.body.Unshared)
    (valid : context.body.validate = .ok ()) (settling : Settling context ∅ start)
    (balanced : Balanced context start) : ∀ other ∈ dirty, other < context.graph.size := by
  induction rounds with
  | none => exact fun other member => absurd member ExtTreeSet.not_mem_empty
  | more earlier unsettled last induction =>
      have rested := settling_of_rounds unshared (invariant_balanced unshared) settling balanced
        earlier
      exact (isEmpty_of_round unshared valid rested.1 rested.2.1 induction last).1

/-! ## Runs -/

theorem balanced_seeded {config : Config} {body : Body} {entry : NodeId} {seeded : RunState}
    (seeds : seeding { config, body } entry (Versioner.start config body) = .ok () seeded) :
    Balanced { config, body } seeded :=
  (unvisited_seeded seeds).balanced (grounded_seeded seeds).recorded

end RunM

end SlotVersioning
