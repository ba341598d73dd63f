import SlotVersioning.Proofs.Rest.Passes

/-!
# Runs end at rest

Every pass visits all nodes, and a node stays at rest while the others are visited. So at the end of
a run every node rests with the facts that entered it last (`Versioner.reposing_of_run`), whether or
not they would enter it again, and with all copies of `finally` blocks.
-/

namespace SlotVersioning

open Std RunM

namespace RunM

/-- The first nodes rest, each with the facts that entered it last. -/
structure Reposing (context : Context) (count : Nat) (state : RunState) : Prop where
  kept : Kept context (Composed context.body context.config) RunState.Admitted Versioned count state
  recorded : state.tables.fields.isSome = context.config.has .fieldVersions
  rests : ∀ name < count, ∃ facts,
    (context.body.course name).Rests context.config state facts

variable {context : Context} {live : Bool} {node : FlowNode} {name other : NodeId} {facts : Facts}
  {count : Nat} {dirty dirtyAfter : DirtyNodes} {before after : RunState}

private theorem Reposing.aside (reposing : Reposing context count before)
    (kept : Kept context (Composed context.body context.config) RunState.Admitted Versioned count
      after) (beside : Beside before after) : Reposing context count after := by
  refine ⟨kept, ?_, fun name bound => ?_⟩
  · rw [beside.fields]
    exact reposing.recorded
  · rcases reposing.rests name bound with ⟨facts, rests⟩
    exact ⟨facts, (rests.undisturbed (fun _ _ => beside.undisturbed) fun recorded =>
      reposing.recorded.symm.trans recorded).1⟩

section

/-- Every place rests once all nodes do. -/
theorem Reposing.rests_at (reposing : Reposing context context.graph.size before) {place : Visit}
    (placed : context.body.Places place) :
    ∃ reaching, place.Rests context.config reaching before := by
  rcases placed with ⟨name, member⟩
  rcases reposing.rests name (Body.lt_size_of_visits member) with ⟨facts, rests⟩
  exact rests.exists_reaching member

variable (usedOnce : context.body.uses.Nodup)
  (ordinary : ∀ expression target, context.body.arena.site? expression = some target →
    0 ≤ target.slot)

include usedOnce ordinary

/-- The course of a node that facts have entered is ready to be run. -/
private theorem Reposing.primed (reposing : Reposing context count before)
    (arrival : arrive context name before = .ok facts after) :
    after = entered before name facts ∧
      Primed context.body context.config name [] (context.body.course name).visits facts after := by
  have upholds := upholds_composed context.config usedOnce ordinary
  rcases arrive_good (upholds.closed before) reposing.kept.storing arrival with
    ⟨rfl, arrives, -⟩
  have enters : Beside before (entered before name facts) := .of_stores before _ _ _ before.events
  have begun := upholds.beside enters reposing.kept.holds
  refine ⟨rfl, begun.1, begun.2.good _ arrives, fun _ member => member, reposing.recorded,
    context.body.prepared_course name [], ?_, fun _ seen => nomatch seen⟩
  exact context.body.nodup_sites usedOnce name

/-- A visit of a node leaves it at rest, and the nodes before it go on resting. -/
private theorem Reposing.visit (reposing : Reposing context name before)
    (found : context.graph.node? name = some node)
    (run : RunM.visit context live dirty (node, name) before = .ok dirtyAfter after) :
    Reposing context (name + 1) after := by
  have upholds := upholds_composed context.config usedOnce ordinary
  have kept := upholds.carries.visit found reposing.kept run
  rcases visit_parts found run with
    ⟨facts, enters, outcome, middle, changed, arrival, course, leaves⟩
  rcases reposing.primed usedOnce ordinary arrival with ⟨rfl, primed⟩
  have hosts : context.body.Hosts name node.statement := ⟨node, found, rfl⟩
  have rested := Course.run_rests usedOnce ordinary hosts primed course
  have left := (leave_ok leaves).beside
  have recorded : middle.tables.fields.isSome = context.config.has .fieldVersions :=
    (Course.run_keepsBooks course).fields.trans reposing.recorded
  refine ⟨kept, by rw [left.fields]; exact recorded, fun other bound => ?_⟩
  rcases Nat.lt_succ_iff_lt_or_eq.1 bound with earlier | rfl
  · rcases reposing.rests other earlier with ⟨stored, rests⟩
    refine ⟨stored, (rests.undisturbed (fun place member => ?_) fun recorded =>
      reposing.recorded.symm.trans recorded).1⟩
    have enters : Beside before (entered before name facts) :=
      .of_stores before _ _ _ before.events
    have elsewhere (expression : ExprId) (touches : expression ∈ place.touched) :
        expression ∉ (context.body.course name).sites :=
      context.body.sites_apart usedOnce (Nat.ne_of_lt earlier) expression
        ((context.body.prepared_course other []).touched_written member expression touches)
    have ran := Course.run_undisturbed usedOnce ordinary hosts (fun _ inside => inside)
      primed.composed primed.admitted course member (rests.versioned member) elsewhere
    exact (enters.undisturbed.trans ran).trans left.undisturbed
  · exact ⟨facts, (rested.rests.undisturbed (fun _ _ => left.undisturbed) fun held =>
      recorded.symm.trans held).1⟩

private theorem reposing_carries : Carries context (Reposing context) where
  restart := fun _ _ reposing =>
    ⟨reposing.kept.restart, reposing.recorded, fun _ bound => absurd bound (Nat.not_lt_zero _)⟩
  visit := fun found reposing run => reposing.visit usedOnce ordinary found run
  aside := fun _ _ _ reposing aside =>
    reposing.aside ((upholds_composed _ usedOnce ordinary).aside reposing.kept aside) aside.toBeside

end

end RunM

namespace Versioner

variable {config : Config} {body : Body} {state : RunState}

/-- Before the first round the books are as they were laid out. -/
theorem Begins.books (begins : Begins config body state) :
    state.Books (start config body).tables := by
  cases begins with
  | bare => exact books_refl _
  | seeded isEntry seeds =>
      exact (indifferent_books _).seeding (fun _ _ books => ⟨books.phantoms, books.fields, books.copies⟩)
        _ _ _ _ _ (books_refl _) seeds

/-- Before the first round nothing has to rest. -/
private theorem Begins.reposing (valid : config.validate = .ok ())
    (begins : Begins config body state) : Reposing { config, body } 0 state := by
  have kept : Kept { config, body } (Accounts body config) RunState.Admitted Versioned 0 state :=
    begins.entering.kept
  refine ⟨⟨⟨kept.holds, fun usage => begins.shaped valid usage _⟩, kept.storing, kept.visited⟩, ?_,
    fun _ bound => absurd bound (Nat.not_lt_zero _)⟩
  rw [begins.books.fields]
  unfold start Tables.fresh Tables.renew
  cases versioned : config.has .fieldVersions <;> rfl

/-- A successful run ends with every node at rest, and with all else that its passes carry on. -/
theorem reposing_of_run {versioner : Versioner} {motive : Nat → RunState → Prop}
    (valid : versioner.config.validate = .ok ()) (usedOnce : body.uses.Nodup)
    (ordinary : ∀ expression target, body.arena.site? expression = some target → 0 ≤ target.slot)
    (carries : Carries { config := versioner.config, body } motive)
    (begun : ∀ state, Begins versioner.config body state → motive 0 state)
    (success : (versioner.run body).outcome = .ok ()) :
    ∃ final, versioner.run body = finish versioner.config body final (.ok ()) ∧
      Reposing { config := versioner.config, body } body.graph.size final ∧
      motive body.graph.size final := by
  have rests := @reposing_carries { config := versioner.config, body } usedOnce ordinary
  exact carried_of_run (rests.and carries)
    (fun state begins => ⟨begins.reposing valid, begun state begins⟩) success

end Versioner

end SlotVersioning
