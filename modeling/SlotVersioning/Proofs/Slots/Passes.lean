import SlotVersioning.Proofs.Rest.Passes
import SlotVersioning.Proofs.Slots.Bodies

/-!
# Passes seen through a view

Contexts match when the same happens to the slot of a view at all their nodes. Passes of contexts
that match keep their states the same for the slot, with all facts that are stored at nodes
(`pass_meets`), even though what is dirty may differ.
-/

namespace SlotVersioning

open Std

/-! ## Facts at nodes -/

/-- There are no facts, or facts with the same versions of the slot. -/
def Facts.SameAt (slot : Slot) : Option Facts → Option Facts → Prop :=
  Option.Rel fun facts others => facts.reaching slot = others.reaching slot

namespace Facts.SameAt

variable {slot : Slot} {left middle right : Option Facts}

theorem refl (slot : Slot) (facts : Option Facts) : SameAt slot facts facts := by
  cases facts with
  | none => exact .none
  | some facts => exact .some rfl

theorem symm (same : SameAt slot left right) : SameAt slot right left := by
  cases same with
  | none => exact .none
  | some same => exact .some same.symm

theorem trans (first : SameAt slot left middle) (second : SameAt slot middle right) :
    SameAt slot left right := by
  cases first with
  | none => exact second
  | some first =>
      cases second with
      | some second => exact .some (first.trans second)

theorem getD (same : SameAt slot left right) :
    (left.getD ∅).reaching slot = (right.getD ∅).reaching slot := by
  cases same with
  | none => rfl
  | some same => exact same

private theorem none_iff (same : SameAt slot left right) : left = none ↔ right = none := by
  cases same <;> simp

/-- They stay so at all nodes when such facts are stored at one. -/
theorem insert {facts others : ExtTreeMap NodeId Facts} {entry otherEntry : Facts}
    (each : ∀ name : NodeId, SameAt slot facts[name]? others[name]?)
    (same : entry.reaching slot = otherEntry.reaching slot) (name other : NodeId) :
    SameAt slot (facts.insert name entry)[other]? (others.insert name otherEntry)[other]? := by
  rw [ExtTreeMap.getElem?_insert, ExtTreeMap.getElem?_insert]
  split
  · exact .some same
  · exact each other

end Facts.SameAt

/-- The facts stored at all nodes are the same for the slot. Where a negative branch leaves a node,
there are facts for both branches or for none. -/
structure Stores.SameAt (slot : Slot) (flow : FlowGraph) (left right : Stores) : Prop where
  inFacts : ∀ name : NodeId, Facts.SameAt slot left.inFacts[name]? right.inFacts[name]?
  outFacts : ∀ name : NodeId, Facts.SameAt slot left.outFacts[name]? right.outFacts[name]?
  negativeFacts : ∀ name : NodeId,
    Facts.SameAt slot left.negativeFacts[name]? right.negativeFacts[name]?
  seeds : right.seeds = left.seeds
  branches : ∀ name, (flow.negativeBranch? name).isSome →
    left.outFacts[name]? ≠ none → left.negativeFacts[name]? ≠ none

namespace Stores.SameAt

variable {slot : Slot} {flow : FlowGraph} {left middle right : Stores}

theorem symm (same : left.SameAt slot flow right) : right.SameAt slot flow left where
  inFacts := fun name => (same.inFacts name).symm
  outFacts := fun name => (same.outFacts name).symm
  negativeFacts := fun name => (same.negativeFacts name).symm
  seeds := same.seeds.symm
  branches := by
    intro name branch present absent
    rw [← (same.negativeFacts name).none_iff] at absent
    exact same.branches name branch (mt (same.outFacts name).none_iff.1 present) absent

theorem trans (first : left.SameAt slot flow middle) (second : middle.SameAt slot flow right) :
    left.SameAt slot flow right where
  inFacts := fun name => (first.inFacts name).trans (second.inFacts name)
  outFacts := fun name => (first.outFacts name).trans (second.outFacts name)
  negativeFacts := fun name => (first.negativeFacts name).trans (second.negativeFacts name)
  seeds := second.seeds.trans first.seeds
  branches := first.branches

end Stores.SameAt

namespace SlotView

variable {view : SlotView} {flow : FlowGraph} {left middle right final : RunState}

/-- The states show the same of the slot, and have stored the same for it. -/
structure Same (view : SlotView) (flow : FlowGraph) (left right : RunState) : Prop
    extends view.Agrees left right where
  stores : left.stores.SameAt view.slot flow right.stores

/-- What lies beside does not show. -/
theorem Agrees.beside (agrees : view.Agrees left right) (beside : Beside right final) :
    view.Agrees left final where
  leftReady := agrees.leftReady
  rightReady := by
    refine agrees.rightReady.of_same beside.nextFieldSlot beside.fields
      (congrArg _ beside.phi) (congrArg _ beside.phantoms) ?_
    have nodes := congrArg Option.isSome beside.nodes
    rw [Option.isSome_map, Option.isSome_map] at nodes
    exact nodes
  version := by
    intro expression inside
    rw [agrees.version expression inside, beside.version]
  last := by
    rw [agrees.last]
    unfold Tables.lastVersion?
    rw [beside.lastVersions]
  merged := by
    intro version
    rw [agrees.merged, Tables.merged?_congr beside.phi]
  haunted := by
    rw [agrees.haunted, beside.phantoms]
  phantom := by
    intro version
    rw [agrees.phantom, Tables.phantom?_congr beside.phantoms]
  graph := by
    have graphs := agrees.graph
    cases stored : right.tables.graph with
    | none =>
        have absent := beside.nodes
        rw [stored, Option.map_none, Option.map_eq_none_iff] at absent
        rw [absent, ← stored]
        exact graphs
    | some graph =>
        rcases beside.graph graph stored with ⟨next, nextStored, similar⟩
        rw [nextStored]
        rw [stored] at graphs
        generalize left.tables.graph = begun at graphs ⊢
        cases graphs with
        | some agree => exact .some (agree.trans (.of_similar agree.rightSound similar))

theorem Agrees.beside_left (agrees : view.Agrees left right) (beside : Beside left final) :
    view.Agrees final right :=
  (agrees.symm.beside beside).symm

namespace Same

theorem symm (same : view.Same flow left right) : view.Same flow right left :=
  ⟨same.toAgrees.symm, same.stores.symm⟩

theorem trans (first : view.Same flow left middle) (second : view.Same flow middle right) :
    view.Same flow left right :=
  ⟨first.toAgrees.trans second.toAgrees, first.stores.trans second.stores⟩

theorem refl_right (same : view.Same flow left right) : view.Same flow right right :=
  same.symm.trans same

/-- Dominators, counts and reports do not show. -/
theorem aside (same : view.Same flow left right) (aside : Aside right final) :
    view.Same flow left final :=
  ⟨same.toAgrees.beside aside.toBeside, aside.stores ▸ same.stores⟩

theorem aside_left (same : view.Same flow left right) (aside : Aside left final) :
    view.Same flow final right :=
  (same.symm.aside aside).symm

variable (same : view.Same flow left right)

include same

private theorem brought (source target : NodeId) :
    left.tables.brought flow source target view.slot =
      right.tables.brought flow source target view.slot := by
  unfold Tables.brought Tables.edgeFacts?
  split
  · exact (same.stores.negativeFacts source).getD
  · exact (same.stores.outFacts source).getD

theorem joins (name : NodeId) (reaching : VersionSet) :
    left.tables.Joins flow name view.slot reaching ↔
      right.tables.Joins flow name view.slot reaching := by
  have seeds : right.tables.seeds = left.tables.seeds := same.stores.seeds
  unfold Tables.Joins Tables.seeded
  simp only [same.brought, seeds]

end Same

end SlotView

/-! ## Nodes -/

/-- The same happens to the slot of the view at every node. -/
structure Context.Matches (view : SlotView) (context other : Context) : Prop where
  configured : context.config = view.config
  otherConfigured : other.config = view.config
  graph : other.graph = context.graph
  noShortPaths : ∀ exit, context.graph.shortPaths? exit = none
  courses : ∀ name, (context.body.course name).Matches view (other.body.course name)
  unstuck : ∀ name, name < context.graph.size → (context.body.course name).Unstuck

namespace RunM

variable {view : SlotView} {context other : Context} {name : NodeId} {node : FlowNode}
  {live otherLive : Bool} {dirty otherDirty : DirtyNodes} {left right : RunState}

/-- What follows from the images of results. -/
theorem Meets.of_map {α β γ δ : Type} {first : RunM α} {second : RunM β} {image : α → γ}
    {otherImage : β → δ} {ends : γ → δ → RunState → RunState → Prop}
    (meets : Meets (image <$> first) (otherImage <$> second) left right ends) :
    Meets first second left right fun value otherValue => ends (image value) (otherImage otherValue) := by
  rcases meets with ⟨_, final, run, _, otherFinal, otherRun, holds⟩
  rw [map_eq_pure_bind] at run otherRun
  rcases bind_ok run with ⟨value, middle, begun, run⟩
  rcases pure_ok run with ⟨rfl, rfl⟩
  rcases bind_ok otherRun with ⟨otherValue, otherMiddle, otherBegun, otherRun⟩
  rcases pure_ok otherRun with ⟨rfl, rfl⟩
  exact ⟨value, final, begun, otherValue, otherFinal, otherBegun, holds⟩

theorem Meets.foldlM {α β γ : Type} {related : RunState → RunState → Prop} (list : List α)
    {step : β → α → RunM β} {otherStep : γ → α → RunM γ} {start : β} {otherStart : γ}
    (each : ∀ entry ∈ list, ∀ value otherValue first second, related first second →
      Meets (step value entry) (otherStep otherValue entry) first second fun _ _ => related)
    (begun : related left right) :
    Meets (list.foldlM step start) (list.foldlM otherStep otherStart) left right
      fun _ _ => related := by
  induction list generalizing start otherStart left right with
  | nil => exact pure begun
  | cons head tail induction =>
      rw [List.forall_mem_cons] at each
      exact (each.1 start otherStart left right begun).bind fun _ _ _ _ =>
        induction fun entry member => each.2 entry member

theorem arrive_reaches (noShortPaths : ∀ exit, context.graph.shortPaths? exit = none)
    (name : NodeId) (state : RunState) :
    Reaches (arrive context name) state fun facts final =>
      final = entered state name facts ∧
        ∀ slot, state.tables.Joins context.graph name slot (facts.reaching slot) := by
  have ends : ∃ facts final, arrive context name state = .ok facts final := by
    unfold arrive
    rw [bind_eq (tables_apply _), Tables.foldlM_arriving _ _ _ noShortPaths]
    exact ⟨_, _, rfl⟩
  rcases ends with ⟨facts, final, run⟩
  exact ⟨facts, final, run, arrive_ok noShortPaths run⟩

theorem leave_reaches (outcome : OutcomeFacts) (state : RunState) :
    Reaches (leave context name outcome) state fun changed final =>
      Left context name outcome changed state final := by
  have ends : ∃ changed final, leave context name outcome state = .ok changed final := by
    unfold leave
    rw [bind_eq (tables_apply _)]
    split
    · exact ⟨_, _, rfl⟩
    · exact ⟨_, _, rfl⟩
  rcases ends with ⟨changed, final, run⟩
  exact ⟨changed, final, run, leave_ok run⟩

/-- At most one set of versions joins what arrives. -/
theorem joins_unique {tables : Tables} {flow : FlowGraph} {slot : Slot}
    {reaching others : VersionSet} (joins : tables.Joins flow name slot reaching)
    (otherJoins : tables.Joins flow name slot others) : reaching = others :=
  VersionSet.ext fun version => (joins version).trans (otherJoins version).symm

/-- Facts of fields are all that is held back where a basic block ends. -/
theorem leaving_sameAt (context other : Context) (node : FlowNode)
    {outcome otherOutcome : OutcomeFacts}
    (both : view.Both outcome.branches otherOutcome.branches left right) :
    (leaving context node outcome).ifTrue.reaching view.slot =
        (leaving other node otherOutcome).ifTrue.reaching view.slot ∧
      (leaving context node outcome).ifFalse.reaching view.slot =
        (leaving other node otherOutcome).ifFalse.reaching view.slot := by
  have ordinary := view.ordinary
  rw [(branches_leaving node outcome ordinary).1, (branches_leaving node outcome ordinary).2,
    (branches_leaving node otherOutcome ordinary).1,
    (branches_leaving node otherOutcome ordinary).2]
  exact ⟨both.onTrue.reaching, both.onFalse.reaching⟩

section

variable (matching : context.Matches view other)

include matching

private theorem arrive_meets (same : view.Same context.graph left right) (name : NodeId) :
    Meets (arrive context name) (arrive other name) left right fun facts others first second =>
      facts.reaching view.slot = others.reaching view.slot ∧
        view.Same context.graph first second := by
  have otherPaths := matching.noShortPaths
  rw [← matching.graph] at otherPaths
  refine (arrive_reaches matching.noShortPaths name left).imp ?_
  rintro facts _ ⟨rfl, joins⟩
  refine (arrive_reaches otherPaths name right).imp ?_
  rintro others _ ⟨rfl, otherJoins⟩
  rw [matching.graph] at otherJoins
  have reaching := joins_unique ((same.joins name _).1 (joins view.slot)) (otherJoins view.slot)
  refine ⟨reaching, ?_, ?_⟩
  · exact (same.toAgrees.beside (.of_stores _ _ _ _ _)).beside_left (.of_stores _ _ _ _ _)
  · exact { same.stores with inFacts := Facts.SameAt.insert same.stores.inFacts reaching name }

theorem evaluateNode_meets (found : context.graph.node? name = some node) {facts others : Facts}
    (reaching : facts.reaching view.slot = others.reaching view.slot)
    (same : view.Same context.graph left right) :
    Meets (evaluateNode context (context.site node.statement live) node facts)
      (evaluateNode other (other.site node.statement otherLive) node others) left right
      fun outcome otherOutcome first second =>
        view.Both outcome.branches otherOutcome.branches first second ∧
          view.Same context.graph first second := by
  have otherFound : other.graph.node? name = some node := matching.graph ▸ found
  have meets : Meets
      (OutcomeFacts.branches <$>
        evaluateNode context (context.site node.statement live) node facts)
      (OutcomeFacts.branches <$>
        evaluateNode other (other.site node.statement otherLive) node others) left right
      fun results otherResults first second =>
        view.Both results otherResults first second ∧ view.Same context.graph first second := by
    rw [evaluateNode_branches, evaluateNode_branches, ← Body.course_of_node found,
      ← Body.course_of_node otherFound]
    have courses : Meets
        ((context.body.course name).run (context.site node.statement live) facts)
        ((other.body.course name).run (other.site node.statement otherLive) others) left right
        view.Both :=
      Course.run_meets (matching.courses name) (matching.unstuck name (lt_size_of_node? found))
        matching.configured matching.otherConfigured ⟨reaching, same.toAgrees⟩
    rcases courses with ⟨results, first, run, otherResults, second, otherRun, both⟩
    refine ⟨results, first, run, otherResults, second, otherRun, both, both.onTrue.agrees, ?_⟩
    rw [(Course.run_frame run).stores, (Course.run_frame otherRun).stores]
    exact same.stores
  exact meets.of_map

/-- What is stored after a node stays the same when the same leaves it. -/
theorem leave_meets {outcome otherOutcome : OutcomeFacts}
    (onTrue : outcome.ifTrue.reaching view.slot = otherOutcome.ifTrue.reaching view.slot)
    (onFalse : outcome.ifFalse.reaching view.slot = otherOutcome.ifFalse.reaching view.slot)
    (same : view.Same context.graph left right) :
    Meets (leave context name outcome) (leave other name otherOutcome) left right
      fun _ _ => view.Same context.graph := by
  have stored := same.stores.branches name
  have otherStored := same.stores.symm.branches name
  refine (leave_reaches outcome left).imp fun changed first departs => ?_
  refine (leave_reaches otherOutcome right).imp fun otherChanged second otherDeparts => ?_
  refine ⟨(same.toAgrees.beside otherDeparts.beside).beside_left departs.beside, ?_⟩
  have negativeHere (branch : (context.graph.negativeBranch? name).isSome) :
      first.tables.negativeFacts[name]? = some outcome.ifFalse ∧
        second.tables.negativeFacts[name]? = some otherOutcome.ifFalse :=
    ⟨departs.negative branch (stored branch),
      otherDeparts.negative (matching.graph ▸ branch) (otherStored branch)⟩
  have inFacts : first.tables.inFacts = left.tables.inFacts := by
    rw [departs.tables]
  have otherInFacts : second.tables.inFacts = right.tables.inFacts := by
    rw [otherDeparts.tables]
  refine ⟨?_, fun entry => ?_, fun entry => ?_, ?_, fun entry branch present => ?_⟩
  · unfold RunState.stores
    dsimp only
    rw [inFacts, otherInFacts]
    exact same.stores.inFacts
  · change Facts.SameAt _ first.tables.outFacts[entry]? second.tables.outFacts[entry]?
    by_cases here : entry = name
    · rw [here, departs.out, otherDeparts.out]
      exact .some onTrue
    · rw [departs.otherOut entry here, otherDeparts.otherOut entry here]
      exact same.stores.outFacts entry
  · change Facts.SameAt _ first.tables.negativeFacts[entry]? second.tables.negativeFacts[entry]?
    by_cases here : entry = name
    · cases branch : context.graph.negativeBranch? name with
      | none =>
          rw [departs.noBranch branch, otherDeparts.noBranch (matching.graph ▸ branch)]
          exact same.stores.negativeFacts entry
      | some target =>
          rcases negativeHere (branch ▸ rfl) with ⟨negative, otherNegative⟩
          rw [here, negative, otherNegative]
          exact .some onFalse
    · rw [departs.otherNegative entry here, otherDeparts.otherNegative entry here]
      exact same.stores.negativeFacts entry
  · exact otherDeparts.beside.seeds.trans (same.stores.seeds.trans departs.beside.seeds.symm)
  · change first.tables.outFacts[entry]? ≠ none at present
    change first.tables.negativeFacts[entry]? ≠ none
    by_cases here : entry = name
    · rw [here] at branch ⊢
      rw [(negativeHere branch).1]
      exact Option.some_ne_none _
    · rw [departs.otherOut entry here] at present
      rw [departs.otherNegative entry here]
      exact same.stores.branches entry branch present

/-- A visit of a node keeps states the same for the slot. -/
private theorem visit_meets (found : context.graph.node? name = some node)
    (same : view.Same context.graph left right) :
    Meets (visit context live dirty (node, name)) (visit other otherLive otherDirty (node, name))
      left right fun _ _ => view.Same context.graph := by
  have otherFound : other.graph.node? name = some node := matching.graph ▸ found
  unfold visit
  refine .bind (arrive_meets matching same name) ?_
  rintro facts others first second ⟨reaching, same⟩
  refine .bind (evaluateNode_meets matching found reaching same) ?_
  rintro outcome otherOutcome first second ⟨both, same⟩
  have leaves := leaving_sameAt context other node both
  refine .bind (leave_meets matching leaves.1 leaves.2 same) fun changed otherChanged _ _ same => ?_
  split
  · split
    · exact .pure same
    · exact .pure same
  · split
    · exact .pure same
    · exact .pure same

/-- A pass keeps states the same for the slot. -/
theorem pass_meets (same : view.Same context.graph left right) :
    Meets (pass context live dirty) (pass other otherLive otherDirty) left right
      fun _ _ => view.Same context.graph := by
  unfold pass
  rw [matching.graph]
  refine .foldlM _ (fun entry member _ _ first second same => ?_) same
  rcases List.mem_zipIdx' member with ⟨known, stored⟩
  refine visit_meets matching ?_ same
  unfold FlowGraph.node?
  rw [← Array.getElem?_toList, List.getElem?_eq_getElem known, stored]

end

end RunM

end SlotVersioning
