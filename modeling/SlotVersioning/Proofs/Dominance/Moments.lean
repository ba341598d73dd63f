import Mathlib.Logic.Relation
import SlotVersioning.Proofs.Dominance.Compression
import SlotVersioning.Proofs.Dominance.Sweep
import SlotVersioning.Proofs.Dominance.Traversal

/-!
# The sweep move by move

`Semidominance.Next` takes the descending sweep apart into the moves between which its forest can be
looked at. Every moment that they lead to is `Tracked`: the links made so far are those of the nodes
above some bound in number, and the forest covers them. So what a question is answered depends on
these links and on the semidominators alone.
-/

namespace SlotVersioning

namespace Semidominance

open SlotVersioning.Numbering

variable {graph : Adjacency} {entry : Nat} {numbering : Numbering} {state : Semidominance}
variable {predecessors : Array (List Nat)}

/-! ## Moments and moves -/

/-- What the sweep is doing: it is between two nodes, it has predecessors of `node` left to take, or
nodes left that waited at `parent`. -/
inductive Task
  | between
  | improving (node : Nat) (predecessors : List Nat)
  | resolving (parent : Nat) (nodes : List Nat)
deriving DecidableEq

structure Moment where
  /-- The nodes that have been linked, the last one first. -/
  linked : List Nat
  /-- The nodes that have not been taken yet. -/
  rest : List Nat
  task : Task
  state : Semidominance
deriving DecidableEq

namespace Moment

def first (numbering : Numbering) (size : Nat) : Moment where
  linked := []
  rest := (numbering.order.toList.drop 1).reverse
  task := .between
  state := initial size

/-- The links made so far, each from a node to its parent. -/
def link? (numbering : Numbering) (moment : Moment) (node : Nat) : Option Nat :=
  if node ∈ moment.linked then numbering.parent? node else none

/-- The greatest number of a node that is not linked. -/
def bound (moment : Moment) : Nat :=
  match moment.task with
  | .improving _ _ => moment.rest.length + 2
  | _ => moment.rest.length + 1

theorem bound_pos {moment : Moment} : 0 < moment.bound := by
  rw [bound]
  split <;> exact Nat.succ_pos _

end Moment

/-- The moves of the sweep. A question may be asked at any time, so the moments between a question
and what is made of its answer are among those that the moves lead to. -/
inductive Next (numbering : Numbering) (predecessors : Array (List Nat)) : Moment → Moment → Prop
  | take {linked rest : List Nat} {state : Semidominance} {node : Nat} :
      Next numbering predecessors ⟨linked, node :: rest, .between, state⟩
        ⟨linked, rest, .improving node (predecessors.getD node []), state⟩
  | improve {linked rest others : List Nat} {state : Semidominance} {node predecessor : Nat} :
      Next numbering predecessors ⟨linked, rest, .improving node (predecessor :: others), state⟩
        ⟨linked, rest, .improving node others, state.improve numbering node predecessor⟩
  | link {linked rest : List Nat} {state : Semidominance} {node parent : Nat}
      (isParent : (numbering.parent? node).getD node = parent) :
      Next numbering predecessors ⟨linked, rest, .improving node [], state⟩
        ⟨node :: linked, rest,
          .resolving parent ((state.linkBelow node parent).waiting.getD parent []),
          (state.linkBelow node parent).withoutWaiting parent⟩
  | resolve {linked rest others : List Nat} {state : Semidominance} {parent node : Nat} :
      Next numbering predecessors ⟨linked, rest, .resolving parent (node :: others), state⟩
        ⟨linked, rest, .resolving parent others, state.resolve numbering parent node⟩
  | finish {linked rest : List Nat} {state : Semidominance} {parent : Nat} :
      Next numbering predecessors ⟨linked, rest, .resolving parent [], state⟩
        ⟨linked, rest, .between, state⟩
  | ask {moment : Moment} {node : Nat} :
      Next numbering predecessors moment
        { moment with state := (moment.state.eval numbering node).2 }

/-- The moves lead from one moment to another. -/
def LeadsTo (numbering : Numbering) (predecessors : Array (List Nat)) : Moment → Moment → Prop :=
  Relation.ReflTransGen (Next numbering predecessors)

/-! ## The sweep is a run of moves -/

private theorem leadsTo_improving {linked rest : List Nat} {node : Nat} (others : List Nat) :
    ∀ {state : Semidominance},
      LeadsTo numbering predecessors ⟨linked, rest, .improving node others, state⟩
        ⟨linked, rest, .improving node [], others.foldl (improve numbering node) state⟩ := by
  induction others with
  | nil => exact .refl
  | cons predecessor others induction => exact .head .improve induction

private theorem leadsTo_resolving {linked rest : List Nat} {parent : Nat} (nodes : List Nat) :
    ∀ {state : Semidominance},
      LeadsTo numbering predecessors ⟨linked, rest, .resolving parent nodes, state⟩
        ⟨linked, rest, .resolving parent [], nodes.foldl (resolve numbering parent) state⟩ := by
  induction nodes with
  | nil => exact .refl
  | cons node nodes induction => exact .head .resolve induction

private theorem leadsTo_step {linked rest : List Nat} {node : Nat} :
    LeadsTo numbering predecessors ⟨linked, node :: rest, .between, state⟩
      ⟨node :: linked, rest, .between, state.step numbering predecessors node⟩ :=
  have improved : LeadsTo numbering predecessors ⟨linked, node :: rest, .between, state⟩ _ :=
    .head .take (leadsTo_improving _)
  (improved.tail (.link rfl)).trans ((leadsTo_resolving _).tail .finish)

theorem leadsTo_foldl {rest : List Nat} (nodes : List Nat) :
    ∀ {linked : List Nat} {state : Semidominance},
      LeadsTo numbering predecessors ⟨linked, nodes ++ rest, .between, state⟩
        ⟨nodes.reverse ++ linked, rest, .between,
          nodes.foldl (step numbering predecessors) state⟩ := by
  induction nodes with
  | nil => exact .refl
  | cons node nodes induction =>
      intro linked state
      rw [List.reverse_cons, List.append_assoc]
      exact leadsTo_step.trans induction

/-- The moves lead to the end of the sweep. -/
theorem leadsTo_sweep (numbering : Numbering) (predecessors : Array (List Nat)) (size : Nat) :
    LeadsTo numbering predecessors (.first numbering size)
      ⟨numbering.order.toList.drop 1, [], .between, sweep numbering predecessors size⟩ := by
  have swept : LeadsTo numbering predecessors
      ⟨[], (numbering.order.toList.drop 1).reverse ++ [], .between, initial size⟩ _ :=
    leadsTo_foldl _
  rwa [List.reverse_reverse, List.append_nil, List.append_nil] at swept

/-! ## What every move keeps -/

/-- The linked nodes are those above the bound in number, the forest covers them, and the nodes that
are left have the numbers below. -/
structure Tracked (numbering : Numbering) (moment : Moment) : Prop where
  forest : moment.state.forest.Covers numbering
    (Forest.untied numbering (rank numbering moment.state)) moment.bound
  linked : ∀ node, node ∈ moment.linked ↔ moment.bound < numbering.number node
  rest : ∀ index node, moment.rest[index]? = some node →
    numbering.number node + index = moment.rest.length + 1
  taken : ∀ node others, moment.task = .improving node others →
    numbering.number node = moment.rest.length + 2

private theorem forest_eval (node : Nat) :
    (state.eval numbering node).2.forest = (state.forest.eval (rank numbering state) node).2 := rfl

/-- While `node` is improved the ranks of the linked nodes stay. -/
private theorem rank_improve {node other : Nat} (different : other ≠ node) (predecessor : Nat) :
    rank numbering (state.improve numbering node predecessor) other =
      rank numbering state other := by
  rcases Nat.eq_zero_or_pos (numbering.number predecessor) with unreached | reached
  · rw [improve, if_neg (by simp [Numbering.isReached, unreached])]
  · rw [improve_reached reached, rank, semidominator]
    dsimp only
    split
    · simp [rank, semidominator, Ne.symm different]
    · rfl

private theorem Tracked.link_eq_some_iff {moment : Moment} (tracked : Tracked numbering moment)
    {node parent : Nat} : moment.link? numbering node = some parent ↔
      moment.bound < numbering.number node ∧ numbering.parent? node = some parent := by
  rw [Moment.link?, ← tracked.linked]
  split <;> simp [*]

/-- The next node to be taken is the one that has the greatest number of those not linked. -/
private theorem Tracked.take {linked rest : List Nat} {node : Nat}
    (tracked : Tracked numbering ⟨linked, node :: rest, .between, state⟩) (others : List Nat) :
    Tracked numbering ⟨linked, rest, .improving node others, state⟩ where
  forest := tracked.forest
  linked := tracked.linked
  rest := by
    intro index other found
    have later := tracked.rest (index + 1) other found
    rw [List.length_cons] at later
    dsimp only
    omega
  taken := by
    intro _ _ task
    cases task
    exact tracked.rest 0 node rfl

section

variable (search : DepthFirst graph entry numbering)

include search

theorem covers_eval {bound : Nat}
    (covers : state.forest.Covers numbering (Forest.untied numbering (rank numbering state)) bound)
    (node : Nat) :
    (state.eval numbering node).2.forest.Covers numbering
      (Forest.untied numbering (rank numbering state)) bound := by
  rw [forest_eval, ← covers.eval_untied search]
  exact covers.eval search node

private theorem tracked_first : Tracked numbering (.first numbering graph.size) := by
  have bounded : ∀ node,
      numbering.number node ≤ (numbering.order.toList.drop 1).reverse.length + 1 := by
    intro node
    rw [List.length_reverse, Nat.add_comm, length_drop search]
    exact search.number_le_count node
  constructor
  case forest =>
    rw [← search.sized]
    exact Forest.covers_discrete bounded
  case linked =>
    exact fun node => ⟨fun member => absurd member List.not_mem_nil, fun high =>
      absurd (bounded node) (Nat.not_le_of_lt high)⟩
  case rest =>
    intro index node found
    change (numbering.order.toList.drop 1).reverse[index]? = some node at found
    have inBounds := (List.getElem?_eq_some_iff.mp found).1
    rw [List.length_reverse] at inBounds
    rw [List.getElem?_reverse inBounds] at found
    have number := number_drop search _ _ found
    change numbering.number node + index = (numbering.order.toList.drop 1).reverse.length + 1
    rw [List.length_reverse]
    omega
  case taken =>
    intro node others task
    cases task

private theorem Tracked.improve {linked rest others : List Nat} {node predecessor : Nat}
    (tracked : Tracked numbering ⟨linked, rest, .improving node (predecessor :: others), state⟩) :
    Tracked numbering
      ⟨linked, rest, .improving node others, state.improve numbering node predecessor⟩ where
  linked := tracked.linked
  rest := tracked.rest
  taken := by
    intro _ _ task
    cases task
    exact tracked.taken node _ rfl
  forest := by
    -- Only the rank of `node` falls, and `node` is not linked yet.
    have last : numbering.number node = rest.length + 2 := tracked.taken node _ rfl
    have kept : (state.improve numbering node predecessor).forest.Covers numbering
        (Forest.untied numbering (rank numbering state)) (rest.length + 2) := by
      rcases Nat.eq_zero_or_pos (numbering.number predecessor) with unreached | reached
      · rw [Semidominance.improve, if_neg (by simp [Numbering.isReached, unreached])]
        exact tracked.forest
      · rw [improve_reached reached]
        exact covers_eval search tracked.forest predecessor
    exact kept.congr_rank fun other high =>
      Forest.untied_congr (rank_improve (fun same => by subst same; omega) predecessor)

theorem Tracked.link {linked rest : List Nat} {node parent : Nat}
    (tracked : Tracked numbering ⟨linked, rest, .improving node [], state⟩)
    (isParent : (numbering.parent? node).getD node = parent) (nodes : List Nat) :
    Tracked numbering ⟨node :: linked, rest, .resolving parent nodes,
      (state.linkBelow node parent).withoutWaiting parent⟩ := by
  have last : numbering.number node = rest.length + 1 + 1 := tracked.taken node _ rfl
  obtain ⟨above, foundAbove⟩ := search.hasParent node (by omega)
  rw [foundAbove, Option.getD_some] at isParent
  subst isParent
  constructor
  case forest => exact tracked.forest.link search last foundAbove
  case linked =>
    intro other
    rw [List.mem_cons, tracked.linked]
    change other = node ∨ rest.length + 2 < numbering.number other ↔
      rest.length + 1 < numbering.number other
    constructor
    · rintro (rfl | high) <;> omega
    · intro high
      by_cases equal : numbering.number other = numbering.number node
      · exact .inl (search.number_injective (Nat.zero_lt_of_lt high) equal)
      · right
        omega
  case rest => exact tracked.rest
  case taken =>
    intro other others task
    cases task

private theorem Tracked.next {moment later : Moment} (tracked : Tracked numbering moment)
    (move : Next numbering predecessors moment later) : Tracked numbering later := by
  cases move with
  | take => exact tracked.take _
  | improve => exact tracked.improve search
  | link isParent => exact tracked.link search isParent _
  | resolve =>
      exact {
        forest := covers_eval search tracked.forest _
        linked := tracked.linked
        rest := tracked.rest
        taken := fun _ _ task => nomatch task }
  | finish =>
      exact {
        forest := tracked.forest
        linked := tracked.linked
        rest := tracked.rest
        taken := fun _ _ task => nomatch task }
  | ask => exact { tracked with forest := covers_eval search tracked.forest _ }

private theorem tracked_of_leadsTo {moment : Moment}
    (reached : LeadsTo numbering predecessors (.first numbering graph.size) moment) :
    Tracked numbering moment := by
  induction reached with
  | refl => exact tracked_first search
  | tail _ move induction => exact induction.next search move

private theorem Tracked.link_eq_none_iff {moment : Moment} (tracked : Tracked numbering moment)
    {node : Nat} : moment.link? numbering node = none ↔ numbering.number node ≤ moment.bound := by
  rw [Moment.link?]
  split
  case isTrue member =>
    have linked := (tracked.linked node).mp member
    obtain ⟨parent, isParent⟩ := search.hasParent node
      (Nat.lt_of_le_of_lt (Nat.succ_le_of_lt Moment.bound_pos) linked)
    simp [isParent, linked]
  case isFalse unlinked =>
    have low := Nat.le_of_not_lt fun high => unlinked ((tracked.linked node).mpr high)
    simp [low]

end

/-! ## Questions -/

/-- What a question about `node` is answered, and what it does to the forest, when the links are
those that `link` gives. -/
structure Answers (numbering : Numbering) (link : Nat → Option Nat) (state : Semidominance)
    (node : Nat) : Prop where
  atRoot : state.forest.ancestor? node = none ↔ link node = none
  root : link node = none → state.eval numbering node = (node, state)
  linked : link node ≠ none → ∃ compressed,
    (∀ forest, Forest.Compresses (rank numbering state) state.forest node forest ↔
      forest = compressed) ∧
    state.eval numbering node = (compressed.bestOf node, { state with forest := compressed }) ∧
    Forest.LeastOnPath link (rank numbering state) node (compressed.bestOf node)
  unchanged : ∀ other, ((state.eval numbering node).2.eval numbering other).1 =
    (state.eval numbering other).1

private theorem Tracked.answers {moment : Moment} (tracked : Tracked numbering moment)
    (search : DepthFirst graph entry numbering) (node : Nat) :
    moment.state.Answers numbering (moment.link? numbering) node := by
  have covers := tracked.forest
  have isRoot : moment.link? numbering node = none ↔ numbering.number node ≤ moment.bound :=
    tracked.link_eq_none_iff search
  have onPath : ∀ {other}, Forest.OnPath (moment.link? numbering) other node ↔
      numbering.Ancestor other node ∧ moment.bound < numbering.number other :=
    Forest.onPath_iff search Moment.bound_pos fun _ _ => tracked.link_eq_some_iff
  constructor
  case atRoot => rw [covers.ancestor_eq_none_iff, isRoot]
  case root =>
    intro atRoot
    rw [Semidominance.eval, ← covers.eval_untied search, covers.eval_root (isRoot.mp atRoot)]
  case linked =>
    intro notRoot
    have linked := Nat.lt_of_not_le fun low => notRoot (isRoot.mpr low)
    obtain ⟨compressed, compresses, answered⟩ :=
      covers.eval_eq_compresses search (rank numbering moment.state) linked
    obtain ⟨ancestor, high, least⟩ := covers.eval_linked search linked
    rw [covers.eval_untied search, answered] at ancestor high least
    refine ⟨compressed, fun forest => ⟨fun other => other.unique compresses, ?_⟩, ?_, ?_⟩
    · rintro rfl
      exact compresses
    · rw [Semidominance.eval, answered]
    · exact ⟨onPath.mpr ⟨ancestor, high⟩, fun other inside =>
        Forest.rank_le_of_untied_le (least other (onPath.mp inside).1 (onPath.mp inside).2)⟩
  case unchanged => exact covers.eval_eval search node

/-- At every moment of the sweep the links made so far decide what the forest answers. -/
theorem answers_of_leadsTo (inRange : graph.InRange) (inGraph : entry < graph.size)
    {moment : Moment}
    (reached : LeadsTo (ofSearch graph entry) graph.predecessorLists
      (.first (ofSearch graph entry) graph.size) moment) (node : Nat) :
    moment.state.Answers (ofSearch graph entry) (moment.link? (ofSearch graph entry)) node :=
  have search := depthFirst_ofSearch inRange inGraph
  (tracked_of_leadsTo search reached).answers search node

/-- Nodes three and four are linked, and the path above node four ends below node two. -/
theorem answers_of_leadsTo_midway :
    let graph : Adjacency := ⟨#[[1, 3], [2], [3], [4], [2]]⟩
    let numbering := ofSearch graph 0
    let moment : Moment := ⟨[3, 4], [2, 1], .between,
      [4, 3].foldl (step numbering graph.predecessorLists) (initial graph.size)⟩
    (graph.InRange ∧ 0 < graph.size ∧
      LeadsTo numbering graph.predecessorLists (.first numbering graph.size) moment) ∧
    moment.link? numbering 2 = none ∧ (moment.state.eval numbering 4).1 = 3 ∧
      Forest.LeastOnPath (moment.link? numbering) (rank numbering moment.state) 4 3 := by
  intro graph numbering moment
  have inRange : graph.InRange := by decide
  have inGraph : 0 < graph.size := by decide
  have start : Moment.first numbering graph.size =
      ⟨[], [4, 3] ++ [2, 1], .between, initial graph.size⟩ := by decide +kernel
  have reached : LeadsTo numbering graph.predecessorLists (.first numbering graph.size) moment :=
    start ▸ leadsTo_foldl [4, 3]
  have answer : (moment.state.eval numbering 4).1 = 3 := by decide
  obtain ⟨compressed, -, answered, least⟩ :=
    (answers_of_leadsTo inRange inGraph reached 4).linked (by decide)
  rw [answered] at answer
  rw [answered]
  exact ⟨⟨inRange, inGraph, reached⟩, by decide, answer, answer ▸ least⟩

end Semidominance

end SlotVersioning
