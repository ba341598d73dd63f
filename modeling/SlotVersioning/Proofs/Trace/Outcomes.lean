import SlotVersioning.Proofs.Pass.Joined
import SlotVersioning.Proofs.Pass.Sequence
import SlotVersioning.Proofs.Trace.Execution

/-!
# What becomes of outcomes

The last evaluation of a node ends with facts where its last test held and facts where it did not.
An edge hands on one of them: to the negative branch the latter, to all other successors the former
(`Versioner.handsOn_of_run`). Where a node has no negative branch, or its negative branch is its
only successor, one of the two outcomes is handed to nobody.
-/

namespace SlotVersioning

open Std

/-- The facts with which an edge continues. -/
def OutcomeFacts.onEdge (outcome : OutcomeFacts) (graph : FlowGraph) (source target : NodeId) :
    Facts :=
  if graph.negativeBranch? source = some target then outcome.ifFalse else outcome.ifTrue

/-! ## The last evaluation of a node -/

/-- The last pass of a run begins with these dirty nodes in a state, and the run ends in another. -/
inductive Versioner.LastPass (versioner : Versioner) (body : Body) :
    (live : Bool) → DirtyNodes → (begun ended : RunState) → Prop
  | round {entry : NodeId} {seeded rested begun ended : RunState} {count : Nat} {dirty : DirtyNodes}
      (entered : body.graph.entry = some entry)
      (seeds : RunM.seeding { config := versioner.config, body } entry
        (start versioner.config body) = .ok () seeded)
      (rounds : RunM.Rounds { config := versioner.config, body } seeded count dirty rested)
      (unsettled : count ≠ 0 → dirty.isEmpty = false)
      (unasked : versioner.config.has .liveRound = false)
      (counts : RunM.countPass rested = .ok () begun)
      (last : RunM.round { config := versioner.config, body } dirty rested = .ok ∅ ended) :
      LastPass versioner body false dirty begun ended
  | live {entry : NodeId} {seeded rested begun ended : RunState} {count : Nat}
      (entered : body.graph.entry = some entry)
      (seeds : RunM.seeding { config := versioner.config, body } entry
        (start versioner.config body) = .ok () seeded)
      (rounds : RunM.Rounds { config := versioner.config, body } seeded count ∅ rested)
      (positive : 0 < count) (asked : versioner.config.has .liveRound = true)
      (counts : RunM.countPass rested = .ok () begun)
      (last : RunM.liveRound { config := versioner.config, body } rested = .ok () ended) :
      LastPass versioner body true ∅ begun ended

/-- The last evaluation of a node in a run ends with an outcome. -/
inductive Versioner.Ends (versioner : Versioner) (body : Body) (name : NodeId)
    (outcome : OutcomeFacts) : Prop
  | midway {live : Bool} {dirty dirtyNow : DirtyNodes}
      {begun ended before enters middle : RunState} {node : FlowNode} {facts : Facts}
      {earlier later : List (FlowNode × NodeId)}
      (last : versioner.LastPass body live dirty begun ended)
      (order : body.graph.nodes.toList.zipIdx = earlier ++ (node, name) :: later)
      (visits : earlier.foldlM (RunM.visit { config := versioner.config, body } live) dirty begun =
        .ok dirtyNow before)
      (arrives : RunM.arrive { config := versioner.config, body } name before = .ok facts enters)
      (evaluates : RunM.evaluateNode { config := versioner.config, body }
        ((Context.mk versioner.config body).site node.statement live) node facts enters =
          .ok outcome middle)

/-- The nodes after a node in the order of the visits are other nodes. -/
theorem FlowGraph.node?_of_order {graph : FlowGraph} {node : FlowNode} {name : NodeId}
    {earlier later : List (FlowNode × NodeId)}
    (order : graph.nodes.toList.zipIdx = earlier ++ (node, name) :: later) :
    graph.node? name = some node ∧ ∀ (index : Nat) entry, later[index]? = some entry →
      graph.node? entry.2 = some entry.1 ∧ entry.2 ≠ name := by
  have listed (index : Nat) (entry : FlowNode × NodeId)
      (found : (earlier ++ (node, name) :: later)[index]? = some entry) :
      entry.2 = index ∧ graph.node? entry.2 = some entry.1 := by
    rw [← order, List.getElem?_zipIdx, Nat.zero_add] at found
    rcases Option.map_eq_some_iff.1 found with ⟨stored, present, rfl⟩
    rw [Array.getElem?_toList] at present
    exact ⟨rfl, present⟩
  have here := listed earlier.length (node, name) (by simp)
  refine ⟨here.2, fun index entry found => ?_⟩
  have after := listed (earlier.length + 1 + index) entry (by
    rw [List.getElem?_append_right (by omega)]
    have shifted : earlier.length + 1 + index - earlier.length = index + 1 := by omega
    rw [shifted, List.getElem?_cons_succ]
    exact found)
  refine ⟨after.2, fun same => ?_⟩
  have beyond : earlier.length = earlier.length + 1 + index :=
    here.1.symm.trans (same.symm.trans after.1)
  omega

namespace RunM

variable {context : Context} {live : Bool} {node : FlowNode} {name : NodeId}
  {earlier later : List (FlowNode × NodeId)} {dirty dirtyAfter : DirtyNodes}
  {state final : RunState}

/-- A pass visits each node at its turn. -/
theorem pass_split (run : pass context live dirty state = .ok dirtyAfter final)
    (order : context.graph.nodes.toList.zipIdx = earlier ++ (node, name) :: later) :
    ∃ dirtyNow before dirtyThen after,
      earlier.foldlM (visit context live) dirty state = .ok dirtyNow before ∧
      visit context live dirtyNow (node, name) before = .ok dirtyThen after ∧
      later.foldlM (visit context live) dirtyThen after = .ok dirtyAfter final := by
  unfold pass at run
  rw [order, List.foldlM_append] at run
  rcases bind_ok run with ⟨dirtyNow, before, first, run⟩
  rw [List.foldlM_cons] at run
  rcases bind_ok run with ⟨dirtyThen, after, second, rest⟩
  exact ⟨dirtyNow, before, dirtyThen, after, first, second, rest⟩

/-- The later visits of a pass leave what is stored after a node. -/
private theorem sameLeaving_of_later (unmonitored : context.graph.Unmonitored)
    (order : context.graph.nodes.toList.zipIdx = earlier ++ (node, name) :: later)
    (run : later.foldlM (visit context live) dirty state = .ok dirtyAfter final) :
    SameLeaving name state final := by
  refine foldlM_induction (motive := fun _ _ reached => SameLeaving name state reached) 0 ?_ run
    ⟨rfl, rfl⟩
  intro index entry value next before after found same visits
  rcases (FlowGraph.node?_of_order order).2 index entry found with ⟨stored, different⟩
  rcases visit_crossed unmonitored stored visits with ⟨_, _, _, _, crossed, -⟩
  exact same.trans ⟨crossed.outFacts_other different.symm, crossed.negativeFacts_other different.symm⟩

end RunM

namespace Versioner

variable {versioner : Versioner} {body : Body}

/-- The last pass visits all nodes, and is followed by nothing that matters. -/
theorem LastPass.pass {live : Bool} {dirty : DirtyNodes} {begun ended : RunState}
    (last : versioner.LastPass body live dirty begun ended) :
    ∃ dirtyAfter after, RunM.pass { config := versioner.config, body } live dirty begun =
      .ok dirtyAfter after ∧ Aside after ended := by
  cases last with
  | round entered seeds rounds unsettled unasked counts last =>
      rcases RunM.round_pass counts last with ⟨after, passes, reported⟩
      exact ⟨∅, after, passes, reported⟩
  | live entered seeds rounds positive asked counts last =>
      rcases RunM.liveRound_pass counts last with ⟨after, dirtyAfter, passes, reported⟩
      exact ⟨dirtyAfter, after, passes, reported⟩

/-- Before the last pass the equations hold at the nodes that are not dirty. -/
private theorem LastPass.joined (straight : (Context.mk versioner.config body).graph.Straight)
    {live : Bool} {dirty : DirtyNodes} {begun ended : RunState}
    (last : versioner.LastPass body live dirty begun ended) :
    Joined ⟨versioner.config, body⟩ dirty begun := by
  have joined {entry : NodeId} {seeded rested : RunState} {count : Nat} {left : DirtyNodes}
      (seeds : RunM.seeding { config := versioner.config, body } entry
        (start versioner.config body) = .ok () seeded)
      (rounds : RunM.Rounds { config := versioner.config, body } seeded count left rested)
      (counts : RunM.countPass rested = .ok () begun) :
      Joined ⟨versioner.config, body⟩ left begun := by
    have unvisited := RunM.unvisited_seeded seeds
    have rested := (RunM.joined_of_rounds straight
      (RunM.joined_of_unvisited unvisited) rounds).1
    cases counts
    exact rested.aside (.of_counted _ _ _)
  cases last with
  | round entered seeds rounds unsettled unasked counts last => exact joined seeds rounds counts
  | live entered seeds rounds positive asked counts last => exact joined seeds rounds counts

namespace Parts

variable {seeded settled final : RunState} {total : Nat}
  (parts : Parts versioner body seeded total settled final)

include parts

private theorem exists_lastPass :
    ∃ live dirty begun, versioner.LastPass body live dirty begun final := by
  rcases parts.seeds with ⟨entry, entered, seeds⟩
  have rounds := parts.rounds
  cases round : versioner.config.has .liveRound with
  | true =>
      exact ⟨true, ∅, _, .live entered seeds rounds parts.positive round (RunM.countPass_apply _)
        (parts.live round)⟩
  | false =>
      rw [parts.dead round]
      cases rounds with
      | none => exact absurd parts.positive (Nat.lt_irrefl 0)
      | more earlier unsettled last =>
          exact ⟨false, _, _, .round entered seeds earlier unsettled round (RunM.countPass_apply _)
            last⟩

/-- There is one last pass. -/
private theorem ended_of_lastPass {live : Bool} {dirty : DirtyNodes} {begun ended : RunState}
    (last : versioner.LastPass body live dirty begun ended) : ended = final := by
  rcases parts.seeds with ⟨entry, isEntry, seedsHere⟩
  have same {other : NodeId} {state : RunState} (entered : body.graph.entry = some other)
      (seeds : RunM.seeding { config := versioner.config, body } other
        (start versioner.config body) = .ok () state) : state = seeded := by
    cases entered.symm.trans isEntry
    cases seeds.symm.trans seedsHere
    rfl
  cases last with
  | round entered seeds rounds unsettled unasked counts last =>
      obtain rfl := same entered seeds
      rw [parts.dead unasked]
      exact ((rounds.more unsettled last).end_unique parts.rounds (Nat.succ_pos _)
        parts.positive).2
  | live entered seeds rounds positive asked counts last =>
      obtain rfl := same entered seeds
      have rested := (rounds.end_unique parts.rounds positive parts.positive).2
      subst rested
      cases last.symm.trans (parts.live asked)
      rfl

variable (straight : (Context.mk versioner.config body).graph.Straight)

include straight

/-- Every node is evaluated a last time. -/
private theorem exists_ends {name : NodeId} (known : name < body.graph.size) :
    ∃ outcome, versioner.Ends body name outcome := by
  rcases parts.exists_lastPass with ⟨live, dirty, begun, last⟩
  rcases last.pass with ⟨dirtyAfter, after, passes, -⟩
  have found : (body.graph.nodes[name], name) ∈ body.graph.nodes.toList.zipIdx := by
    rw [List.mem_zipIdx_iff_getElem?, Array.getElem?_toList]
    exact Array.getElem?_eq_getElem known
  rcases List.append_of_mem found with ⟨earlier, later, order⟩
  rcases RunM.pass_split passes order with
    ⟨dirtyNow, before, dirtyThen, middle, visits, here, -⟩
  rcases RunM.visit_crossed straight.unmonitored (FlowGraph.node?_of_order order).1 here with
    ⟨facts, outcome, changed, _, crossed, -⟩
  exact ⟨outcome, .midway last order visits crossed.arrival crossed.evaluates⟩

/-- In the end what is stored after a node is what its last evaluation ended with. -/
private theorem stored_of_ends {name : NodeId}
    {outcome : OutcomeFacts} (ends : versioner.Ends body name outcome) :
    ∃ node, final.tables.outFacts[name]? =
        some (RunM.leaving ⟨versioner.config, body⟩ node outcome).ifTrue ∧
      ((body.graph.negativeBranch? name).isSome → final.tables.negativeFacts[name]? =
        some (RunM.leaving ⟨versioner.config, body⟩ node outcome).ifFalse) := by
  cases ends with
  | @midway live dirty dirtyNow begun ended before enters middle node facts earlier later last order
      visits arrives evaluates =>
      obtain rfl := parts.ended_of_lastPass last
      rcases last.pass with ⟨dirtyAfter, after, passes, aside⟩
      rcases RunM.pass_split passes order with ⟨_, _, dirtyThen, reached, first, here, rest⟩
      cases visits.symm.trans first
      rcases RunM.visit_crossed straight.unmonitored (FlowGraph.node?_of_order order).1 here with
        ⟨_, _, changed, _, crossed, -⟩
      cases arrives.symm.trans crossed.arrival
      cases evaluates.symm.trans crossed.evaluates
      have joined := (RunM.joined_of_visits straight order visits
        (last.joined straight)).1
      have same := RunM.sameLeaving_of_later straight.unmonitored order rest
      refine ⟨node, ?_, fun branch => ?_⟩
      · rw [aside.outFacts, same.outFacts]
        exact crossed.left.out
      · rw [aside.negativeFacts, same.negativeFacts]
        exact crossed.stored joined branch

/-- In the end edges bring what the last evaluation of their source ended with. -/
private theorem brought_of_ends {source : NodeId} {outcome : OutcomeFacts}
    (ends : versioner.Ends body source outcome) (target : NodeId) {slot : Slot}
    (ordinary : 0 ≤ slot) :
    final.tables.brought body.graph source target slot =
      (outcome.onEdge body.graph source target).reaching slot := by
  rcases parts.stored_of_ends straight ends with ⟨node, onTrue, onFalse⟩
  have leaves := @RunM.branches_leaving ⟨versioner.config, body⟩ node outcome slot ordinary
  unfold Tables.brought Tables.edgeFacts? OutcomeFacts.onEdge
  by_cases negative : body.graph.negativeBranch? source = some target
  · rw [if_pos negative, if_pos negative, onFalse (by rw [negative]; rfl), Option.getD_some]
    exact leaves.2
  · rw [if_neg negative, if_neg negative, onTrue, Option.getD_some]
    exact leaves.1

end Parts

/-! ## Whole runs -/

end Versioner

/-- A parameter that is assigned if a test holds, at a node without a negative branch. -/
def Body.deciding : Body where
  arena.exprs := #[.literal .null, .variable { slot := 0 }, .literal .null, .assignment 1 2 none,
    .and 0 3]
  graph.nodes := #[
    { kind := .direct, statement := 0, expressions := [4], predecessors := [], successors := [1] },
    { kind := .direct, statement := 0, predecessors := [0], successors := [] }]
  graph.entry := some 0
  signature := { isStatic := true, parameters := [.single] }

theorem Body.straight_deciding : Body.deciding.graph.Straight where
  built := by
    have nodes : FlowGraph.Built _ := (FlowGraph.Built.empty.addNode .direct 0).addNode .direct 0
    have testing := @FlowGraph.Built.appendExpression _ _ nodes 0 4 rfl
    exact @FlowGraph.Built.connect _ _ testing 0 1 rfl
  noShortPaths := fun _ => ExtTreeMap.getElem?_empty
  noExtraNodes := fun _ => ExtTreeSet.contains_empty

namespace Versioner

variable {versioner : Versioner} {body : Body}

/-- What becomes of the outcomes with which the nodes of a run end. -/
structure HandsOn (versioner : Versioner) (body : Body) : Prop where
  ends : ∀ name, name < body.graph.size → ∃ outcome, versioner.Ends body name outcome
  /-- What enters a node is what the edges hand on to it, and what enters from outside. -/
  entering : ∀ target, target < body.graph.size → ∀ slot : Slot, 0 ≤ slot → ∀ version,
    version ∈ (versioner.run body).versioner.tables.entering target slot ↔
      (∃ source ∈ body.graph.predecessors target, ∃ outcome, versioner.Ends body source outcome ∧
        version ∈ (outcome.onEdge body.graph source target).reaching slot) ∨
      version ∈ (versioner.run body).versioner.tables.seeded target slot
  /-- What holds where the last test held enters every successor but the negative branch. -/
  onTrue : ∀ source outcome, versioner.Ends body source outcome →
    ∀ target ∈ body.graph.successors source, body.graph.negativeBranch? source ≠ some target →
      ∀ slot : Slot, 0 ≤ slot → ∀ version ∈ outcome.ifTrue.reaching slot,
        version ∈ (versioner.run body).versioner.tables.entering target slot
  /-- What holds where the last test did not hold enters the negative branch. -/
  onFalse : ∀ source outcome, versioner.Ends body source outcome →
    ∀ target ∈ body.graph.successors source, body.graph.negativeBranch? source = some target →
      ∀ slot : Slot, 0 ≤ slot → ∀ version ∈ outcome.ifFalse.reaching slot,
        version ∈ (versioner.run body).versioner.tables.entering target slot

/-- A run hands on the outcome with which each node ends, and what it hands on is all that enters
its nodes but for seeds. -/
theorem handsOn_of_run (straight : body.graph.Straight) (steady : versioner.Steady body)
    (success : (versioner.run body).outcome = .ok ()) : versioner.HandsOn body := by
  rcases run_ok success with ⟨_, valid, -, -⟩
  cases found : body.graph.entry with
  | none =>
      have empty := size_of_noEntry valid found
      have nowhere {name : NodeId} (known : name < body.graph.size) : False := by
        rw [empty] at known
        exact Nat.not_lt_zero name known
      have never {source : NodeId} {outcome : OutcomeFacts}
          (ends : versioner.Ends body source outcome) : False := by
        cases ends with
        | midway last =>
            cases last with
            | round entered => exact nomatch found.symm.trans entered
            | live entered => exact nomatch found.symm.trans entered
      exact ⟨fun _ known => (nowhere known).elim, fun _ known => (nowhere known).elim,
        fun _ _ ends => (never ends).elim, fun _ _ ends => (never ends).elim⟩
  | some entry =>
      rcases parts_of_run success found with ⟨seeded, total, settled, final, parts⟩
      have tables : (versioner.run body).versioner.tables = final.tables := by
        rw [parts.result]
        rfl
      have entering (target : NodeId) (known : target < body.graph.size) (slot : Slot)
          (ordinary : 0 ≤ slot) (version : Version) :
          version ∈ final.tables.entering target slot ↔
            (∃ source ∈ body.graph.predecessors target, ∃ outcome,
              versioner.Ends body source outcome ∧
              version ∈ (outcome.onEdge body.graph source target).reaching slot) ∨
            version ∈ final.tables.seeded target slot := by
        rcases parts.joined straight steady target known with ⟨facts, stored, joins⟩
        rw [Tables.entering_of_stored stored, joins slot ordinary version]
        apply or_congr_left
        constructor
        · rintro ⟨source, edge, brings⟩
          rcases parts.exists_ends straight (straight.built.lt_size_of_predecessor edge) with
            ⟨outcome, ends⟩
          rw [parts.brought_of_ends straight ends target ordinary] at brings
          exact ⟨source, edge, outcome, ends, brings⟩
        · rintro ⟨source, edge, outcome, ends, brings⟩
          rw [← parts.brought_of_ends straight ends target ordinary] at brings
          exact ⟨source, edge, brings⟩
      have handed {source target : NodeId} {outcome : OutcomeFacts}
          (ends : versioner.Ends body source outcome) (edge : target ∈ body.graph.successors source)
          {slot : Slot} (ordinary : 0 ≤ slot) {version : Version}
          (brings : version ∈ (outcome.onEdge body.graph source target).reaching slot) :
          version ∈ final.tables.entering target slot := by
        have entered := (straight.built.linked source target).1 edge
        exact (entering target (FlowGraph.lt_size_of_entered entered) slot ordinary version).2
          (.inl ⟨source, entered, outcome, ends, brings⟩)
      refine ⟨fun name known => parts.exists_ends straight known, ?_,
        fun source outcome ends target edge positive slot ordinary version holds => ?_,
        fun source outcome ends target edge negative slot ordinary version holds => ?_⟩
      · rw [tables]
        exact entering
      · rw [tables]
        apply handed ends edge ordinary
        unfold OutcomeFacts.onEdge
        rw [if_neg positive]
        exact holds
      · rw [tables]
        apply handed ends edge ordinary
        unfold OutcomeFacts.onEdge
        rw [if_pos negative]
        exact holds

/-- What `handsOn_of_run` says of `deciding`. -/
theorem handsOn_deciding : Config.plain.versioner.HandsOn .deciding :=
  handsOn_of_run Body.straight_deciding (fun asked => nomatch asked) (by decide +kernel)

/-- The state after the seeding of `deciding`, when the first pass begins. -/
def Deciding.begun (passes : Nat) : RunState :=
  let state := Versioner.start .plain .deciding
  { state with tables := { state.tables with
      seeds := state.tables.seeds.insert 0 (Facts.pin ∅ 0 1)
      lastVersions := state.tables.lastVersions.insert 0 1
      passes } }

/-- The last evaluation of the first node of `deciding` ends with the parameter as it came, where
the test did not hold. -/
private theorem ends_deciding : Config.plain.versioner.Ends .deciding 0
    (.split (Facts.pin ∅ 0 2) (Facts.pin ∅ 0 1 ∪ Facts.pin ∅ 0 2)) := by
  have seeds : RunM.seeding ⟨.plain, .deciding⟩ 0 (start .plain .deciding) =
      .ok () (Deciding.begun 0) := by
    with_unfolding_all rfl
  have last : RunM.round ⟨.plain, .deciding⟩ ∅ (Deciding.begun 0) =
      .ok ∅ (RunM.rested ⟨.plain, .deciding⟩ (Deciding.begun 0) 1) := by
    with_unfolding_all rfl
  have whole : Config.plain.versioner.LastPass .deciding false ∅ (Deciding.begun 1) _ :=
    .round rfl seeds .none (fun positive => absurd rfl positive) rfl rfl last
  have arrives : RunM.arrive ⟨.plain, .deciding⟩ 0 (Deciding.begun 1) =
      .ok (Facts.pin ∅ 0 1) (RunM.entered (Deciding.begun 1) 0 (Facts.pin ∅ 0 1)) := by
    with_unfolding_all rfl
  have evaluates : ∃ middle, RunM.evaluateNode ⟨.plain, .deciding⟩
      ((Context.mk .plain .deciding).site 0 false) Body.deciding.graph.nodes[0]
      (Facts.pin ∅ 0 1) (RunM.entered (Deciding.begun 1) 0 (Facts.pin ∅ 0 1)) =
        .ok (.split (Facts.pin ∅ 0 2) (Facts.pin ∅ 0 1 ∪ Facts.pin ∅ 0 2)) middle :=
    ⟨_, by with_unfolding_all rfl⟩
  rcases evaluates with ⟨middle, evaluates⟩
  exact @Ends.midway _ _ _ _ _ _ _ _ _ _ _ _ _ _ [] _ whole rfl rfl arrives evaluates

/-- The first node of `deciding` has a successor, but the parameter as it came does not enter it. -/
theorem outcome_lost :
    ¬ ∀ (versioner : Versioner) (body : Body), versioner.config.validate = .ok () →
      body.graph.Straight → (versioner.run body).outcome = .ok () →
      ∀ source outcome, versioner.Ends body source outcome →
        (∃ target, target ∈ body.graph.successors source) →
        (∀ target, body.graph.negativeBranch? source = some target →
          target ∈ body.graph.successors source) →
        ∀ slot : Slot, 0 ≤ slot → ∀ version,
          version ∈ outcome.ifTrue.reaching slot ∨ version ∈ outcome.ifFalse.reaching slot →
          ∃ target ∈ body.graph.successors source,
            version ∈ (versioner.run body).versioner.tables.entering target slot := by
  intro claim
  have reaches : 1 ∈ (Facts.pin ∅ 0 1 ∪ Facts.pin ∅ 0 2).reaching 0 := by
    decide
  have noBranch (target : NodeId) (branch : Body.deciding.graph.negativeBranch? 0 = some target) :
      target ∈ Body.deciding.graph.successors 0 := by
    unfold FlowGraph.negativeBranch? at branch
    exact nomatch branch.symm.trans ExtTreeMap.getElem?_empty
  rcases claim Config.plain.versioner .deciding (by decide) Body.straight_deciding
    (by decide +kernel) 0 _ ends_deciding ⟨1, List.mem_singleton_self 1⟩ noBranch 0 (Int.le_refl 0) 1
    (.inr reaches) with ⟨target, edge, entering⟩
  obtain rfl : target = 1 := List.mem_singleton.1 edge
  revert entering
  decide +kernel

end Versioner

end SlotVersioning
