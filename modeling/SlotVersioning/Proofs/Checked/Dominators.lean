import SlotVersioning.Proofs.Checked.Search
import SlotVersioning.Proofs.Dominance.Correct

/-!
# Dominators within bounds

The dominator algorithm with every index checked: those into its tables, and the entries of the
tables that are themselves used as an index, which are refused while they are unset.
`DominatorTree.compute?_eq` says that nothing is refused if edges and roots stay within the graph.
-/

namespace SlotVersioning

open SlotVersioning.Numbering

variable {graph : Adjacency} {entry : Nat} {numbering : Numbering} {bound node parent : Nat}

/-! ## The forest -/

namespace Forest

variable {rank : Nat → Nat} {rank? : Nat → Option Nat} {forest : Forest} {ancestor : Nat}

def shorten? (forest : Forest) (rank? : Nat → Option Nat) (node ancestor : Nat) :
    Option Forest := do
  let candidate ← forest.best[ancestor]?
  let own ← forest.best[node]?
  let best ←
    if (← rank? candidate) < (← rank? own) then putAt? forest.best node candidate
    else some forest.best
  let ancestors ← putAt? forest.ancestors node (← forest.ancestors[ancestor]?)
  return { best, ancestors }

/-- Makes `node` a child of its root. It has to be linked, and the fuel has to last. -/
def compress? (rank? : Nat → Option Nat) : (fuel : Nat) → Forest → Nat → Option Forest
  | 0, _, _ => none
  | fuel + 1, forest, node => do
      let ancestor ← (← forest.ancestors[node]?)
      if (← forest.ancestors[ancestor]?).isNone then
        return forest
      else
        (← compress? rank? fuel forest ancestor).shorten? rank? node ancestor

def eval? (rank? : Nat → Option Nat) (forest : Forest) (node : Nat) : Option (Nat × Forest) := do
  if (← forest.ancestors[node]?).isNone then
    return (node, forest)
  else
    let compressed ← compress? rank? forest.ancestors.size forest node
    return (← compressed.best[node]?, compressed)

namespace Covers

theorem ancestors_at (covers : forest.Covers numbering rank bound)
    (reached : 0 < numbering.number node) :
    forest.ancestors[node]? = some (forest.ancestor? node) :=
  getElem?_eq_some_getD (covers.ancestorsSized.symm ▸ lt_size_of_reached reached) none

theorem best_at (covers : forest.Covers numbering rank bound)
    (reached : 0 < numbering.number node) : forest.best[node]? = some (forest.bestOf node) :=
  getElem?_eq_some_getD (covers.bestSized.symm ▸ lt_size_of_reached reached) node

private theorem best_reached (covers : forest.Covers numbering rank bound)
    (linked : bound < numbering.number node) : 0 < numbering.number (forest.bestOf node) := by
  obtain ⟨ancestor, -, spans⟩ := covers.linked node linked
  exact Nat.zero_lt_of_lt spans.between.after

private theorem shorten?_eq (covers : forest.Covers numbering rank bound)
    (ranks : ∀ node, 0 < numbering.number node → rank? node = some (rank node))
    (linked : bound < numbering.number node) (ancestorLinked : bound < numbering.number ancestor) :
    forest.shorten? rank? node ancestor = some (forest.shorten rank node ancestor) := by
  have reached := Nat.zero_lt_of_lt linked
  have ancestorReached := Nat.zero_lt_of_lt ancestorLinked
  have inBest : node < forest.best.size := covers.bestSized.symm ▸ lt_size_of_reached reached
  have inAncestors : node < forest.ancestors.size :=
    covers.ancestorsSized.symm ▸ lt_size_of_reached reached
  simp only [Forest.shorten?, covers.best_at reached, covers.best_at ancestorReached,
    covers.ancestors_at ancestorReached, ranks _ (covers.best_reached linked),
    ranks _ (covers.best_reached ancestorLinked), putAt?_eq inBest, putAt?_eq inAncestors,
    Option.bind_eq_bind, Option.bind_some]
  rw [Forest.shorten]
  dsimp only
  split <;> rfl

variable (search : DepthFirst graph entry numbering)
variable (ranks : ∀ node, 0 < numbering.number node → rank? node = some (rank node))

include search ranks

private theorem compress?_eq (fuel : Nat) :
    ∀ {forest : Forest} {node : Nat}, forest.Covers numbering rank bound →
      bound < numbering.number node → numbering.number node ≤ fuel →
      compress? rank? fuel forest node = some (Forest.compress rank fuel forest node) := by
  induction fuel with
  | zero =>
      exact fun _ linked enough =>
        absurd (Nat.lt_of_lt_of_le linked enough) (Nat.not_lt_zero _)
  | succ fuel induction =>
      intro forest node covers linked enough
      obtain ⟨ancestor, found, spans⟩ := covers.linked node linked
      have lower := Nat.lt_of_lt_of_le spans.between.after
        (search.number_le_of_ancestor spans.between.onPath)
      rw [compress?, Forest.compress,
        bind_of_eq_some (covers.ancestors_at (Nat.zero_lt_of_lt linked)), bind_of_eq_some found,
        bind_of_eq_some (covers.ancestors_at spans.reached), found]
      dsimp only
      rcases Nat.lt_or_ge bound (numbering.number ancestor) with ancestorLinked | ancestorLow
      · obtain ⟨above, foundAbove, -⟩ := covers.linked ancestor ancestorLinked
        have compressed := (Covers.compress search fuel covers (Nat.le_of_lt_succ
          (Nat.lt_of_lt_of_le lower enough))).1
        rw [foundAbove, Option.isNone_some, if_neg Bool.false_ne_true, if_neg Bool.false_ne_true,
          bind_of_eq_some (induction covers ancestorLinked
            (Nat.le_of_lt_succ (Nat.lt_of_lt_of_le lower enough)))]
        exact compressed.shorten?_eq ranks linked ancestorLinked
      · rw [(covers.root ancestor ancestorLow).1, Option.isNone_none, if_pos rfl, if_pos rfl]
        rfl

theorem eval?_eq (covers : forest.Covers numbering rank bound)
    (reached : 0 < numbering.number node) :
    eval? rank? forest node = some (Forest.eval rank forest node) := by
  rw [eval?, bind_of_eq_some (covers.ancestors_at reached)]
  rcases Nat.lt_or_ge bound (numbering.number node) with linked | low
  · obtain ⟨ancestor, found, -⟩ := covers.linked node linked
    have enough := covers.number_le search node
    have compressed := (Covers.compress search _ covers enough).1
    rw [covers.eval_eq_compress linked, found, Option.isNone_some, if_neg Bool.false_ne_true,
      bind_of_eq_some (compress?_eq search ranks _ covers linked enough),
      bind_of_eq_some (compressed.best_at reached)]
    rfl
  · rw [covers.eval_root low, (covers.root node low).1, Option.isNone_none, if_pos rfl]
    rfl

omit ranks in
theorem eval_reached (covers : forest.Covers numbering rank bound)
    (reached : 0 < numbering.number node) :
    0 < numbering.number (Forest.eval rank forest node).1 := by
  rcases Nat.lt_or_ge bound (numbering.number node) with linked | low
  · exact Nat.zero_lt_of_lt (covers.eval_linked search linked).2.1
  · rwa [covers.eval_root low]

end Covers

end Forest

/-! ## The descending sweep -/

namespace Semidominance

variable {state start : Semidominance} {exempt : Option Nat} {done : List Nat}

def rank? (numbering : Numbering) (state : Semidominance) (node : Nat) : Option Nat := do
  numbering.numbers[← state.semidominators[node]?]?

def improve? (numbering : Numbering) (node : Nat) (state : Semidominance) (predecessor : Nat) :
    Option Semidominance := do
  if (← numbering.numbers[predecessor]?) = 0 then
    return state
  else
    let (best, forest) ← state.forest.eval? (rank? numbering state) predecessor
    if (← rank? numbering state best) < (← rank? numbering state node) then
      let semidominators ← putAt? state.semidominators node (← state.semidominators[best]?)
      return { state with semidominators, forest }
    else
      return { state with forest }

def resolve? (numbering : Numbering) (parent : Nat) (state : Semidominance) (node : Nat) :
    Option Semidominance := do
  let (best, forest) ← state.forest.eval? (rank? numbering state) node
  let dominator :=
    if (← state.semidominators[best]?) = (← state.semidominators[node]?) then parent else best
  let immediate ← putAt? state.immediate node (some dominator)
  return { state with immediate, forest }

def linkBelow? (state : Semidominance) (node parent : Nat) : Option Semidominance := do
  let waiting ← modifyAt? state.waiting (← state.semidominators[node]?) (· ++ [node])
  let ancestors ← putAt? state.forest.ancestors node (some parent)
  return { state with waiting, forest := { state.forest with ancestors } }

def step? (numbering : Numbering) (predecessors : Array (List Nat)) (state : Semidominance)
    (node : Nat) : Option Semidominance := do
  let parent ← (← numbering.parents[node]?)
  let improved ← (← predecessors[node]?).foldlM (improve? numbering node) state
  let linked ← improved.linkBelow? node parent
  let resolvable ← linked.waiting[parent]?
  let waiting ← putAt? linked.waiting parent []
  resolvable.foldlM (resolve? numbering parent) { linked with waiting }

def sweep? (numbering : Numbering) (predecessors : Array (List Nat)) (size : Nat) :
    Option Semidominance :=
  (numbering.order.toList.drop 1).reverse.foldlM (step? numbering predecessors) (initial size)

/-- There is a semidominator for every node, and that of a reached node is reached. -/
structure Housed (numbering : Numbering) (state : Semidominance) : Prop where
  sized : state.semidominators.size = numbering.numbers.size
  reached : ∀ node, 0 < numbering.number node →
    0 < numbering.number (state.semidominator node)

namespace Housed

variable (housed : state.Housed numbering)

include housed

theorem semidominator_at (reached : 0 < numbering.number node) :
    state.semidominators[node]? = some (state.semidominator node) :=
  getElem?_eq_some_getD (housed.sized.symm ▸ lt_size_of_reached reached) node

theorem rank?_eq (node : Nat) (reached : 0 < numbering.number node) :
    rank? numbering state node = some (rank numbering state node) := by
  rw [rank?, bind_of_eq_some (housed.semidominator_at reached)]
  exact getElem?_eq_some_getD (lt_size_of_reached (housed.reached node reached)) 0

end Housed

theorem Swept.housed (swept : Swept graph numbering bound exempt state) :
    state.Housed numbering where
  sized := swept.sized
  reached := by
    intro node reached
    rcases Nat.lt_or_ge bound (numbering.number node) with linked | low
    · exact (swept.found node linked).candidate.1
    · rwa [(swept.untouched node low).1]

theorem Improving.housed (improving : Improving graph numbering node start done state)
    (swept : Swept graph numbering bound exempt start) : state.Housed numbering where
  sized := improving.sized.trans swept.sized
  reached := by
    intro other reached
    by_cases same : other = node
    · subst same
      rcases improving.candidate with itself | candidate
      · rwa [itself]
      · exact candidate.1
    · rw [improving.kept other same]
      exact swept.housed.reached other reached

private theorem Resolving.housed (resolving : Resolving graph numbering bound start done state)
    (housed : start.Housed numbering) : state.Housed numbering := by
  constructor
  case sized => rw [resolving.semidominators, housed.sized]
  case reached =>
    intro node reached
    rw [semidominator, resolving.semidominators]
    exact housed.reached node reached

section

variable (search : DepthFirst graph entry numbering)

include search

private theorem Improving.improve?_eq {predecessor : Nat}
    (improving : Improving graph numbering node start done state)
    (swept : Swept graph numbering bound exempt start) (reachedNode : 0 < numbering.number node)
    (inside : predecessor < numbering.numbers.size) :
    state.improve? numbering node predecessor =
      some (state.improve numbering node predecessor) := by
  have housed := improving.housed swept
  rw [improve?, bind_of_eq_some (getElem?_eq_some_getD inside 0)]
  change (if numbering.number predecessor = 0 then _ else _) = _
  rcases Nat.eq_zero_or_pos (numbering.number predecessor) with unreached | reached
  · rw [if_pos unreached, Semidominance.improve,
      if_neg (by simp [Numbering.isReached, unreached])]
    rfl
  · have best := improving.forest.eval_reached search reached
    have inSemidominators : node < state.semidominators.size :=
      housed.sized.symm ▸ lt_size_of_reached reachedNode
    rw [if_neg (Nat.ne_of_gt reached), improve_reached reached, Semidominance.proposal,
      bind_of_eq_some (improving.forest.eval?_eq search housed.rank?_eq reached)]
    dsimp only
    rw [bind_of_eq_some (housed.rank?_eq _ best), bind_of_eq_some (housed.rank?_eq _ reachedNode)]
    split
    · rw [bind_of_eq_some (housed.semidominator_at best),
        bind_of_eq_some (putAt?_eq inSemidominators _)]
      rfl
    · rfl

private theorem Resolving.resolve?_eq (resolving : Resolving graph numbering bound start done state)
    (housed : start.Housed numbering) (sized : start.immediate.size = numbering.numbers.size)
    (reached : 0 < numbering.number node) :
    state.resolve? numbering parent node = some (state.resolve numbering parent node) := by
  have stays := resolving.housed housed
  have best := resolving.forest.eval_reached search reached
  have inside : node < state.immediate.size := by
    rw [resolving.sized, sized]
    exact lt_size_of_reached reached
  rw [resolve?, bind_of_eq_some (resolving.forest.eval?_eq search stays.rank?_eq reached)]
  dsimp only
  rw [bind_of_eq_some (stays.semidominator_at best),
    bind_of_eq_some (stays.semidominator_at reached), bind_of_eq_some (putAt?_eq inside _)]
  rfl

end

private theorem linkBelow?_eq (housed : state.Housed numbering)
    (waitingSized : state.waiting.size = numbering.numbers.size)
    (ancestorsSized : state.forest.ancestors.size = numbering.numbers.size)
    (reached : 0 < numbering.number node) :
    state.linkBelow? node parent = some (state.linkBelow node parent) := by
  have inWaiting : state.semidominator node < state.waiting.size :=
    waitingSized.symm ▸ lt_size_of_reached (housed.reached node reached)
  have inAncestors : node < state.forest.ancestors.size :=
    ancestorsSized.symm ▸ lt_size_of_reached reached
  rw [linkBelow?, bind_of_eq_some (housed.semidominator_at reached),
    bind_of_eq_some (modifyAt?_eq inWaiting _), bind_of_eq_some (putAt?_eq inAncestors _)]
  rfl

private theorem parents_at (isParent : numbering.parent? node = some parent) :
    numbering.parents[node]? = some (some parent) := by
  rw [Numbering.parent?, Array.getD_eq_getD_getElem?] at isParent
  cases found : numbering.parents[node]? with
  | none => simp [found] at isParent
  | some stored =>
      rw [found, Option.getD_some] at isParent
      exact congrArg some isParent

section

variable (search : DepthFirst graph entry numbering)

include search

/-- The predecessors of a node improve it without leaving the tables. -/
private theorem Swept.improve?_foldl
    (swept : Swept graph numbering (numbering.number node) exempt state)
    (reached : 0 < numbering.number node) :
    (graph.predecessorLists.getD node []).foldlM (improve? numbering node) state =
      some ((graph.predecessorLists.getD node []).foldl (improve numbering node) state) := by
  refine foldlM_eq_some (fun improved => ∃ done, Improving graph numbering node state done improved)
    ?_ state ⟨[], improving_start swept⟩
  rintro improved ⟨done, improving⟩ predecessor member
  have edge := (Adjacency.mem_predecessorLists (search.sized ▸ lt_size_of_reached reached)).1 member
  exact ⟨improving.improve?_eq search swept reached
      (search.sized.symm ▸ Adjacency.lt_size_of_edge edge),
    _, improving.improve search swept reached edge⟩

/-- The nodes that wait at a parent are resolved without leaving the tables. -/
private theorem Swept.resolve?_foldl (swept : Swept graph numbering bound (some parent) state)
    (last : numbering.number node = bound + 1) (isParent : numbering.parent? node = some parent) :
    (state.waiting.getD parent []).foldlM (resolve? numbering parent)
        (state.withoutWaiting parent) =
      some ((state.waiting.getD parent []).foldl (Semidominance.resolve numbering parent)
        (state.withoutWaiting parent)) := by
  have housed : (state.withoutWaiting parent).Housed numbering :=
    ⟨swept.sized, swept.housed.reached⟩
  have found : ∀ other, bound < numbering.number other →
      IsSemidominator graph numbering ((state.withoutWaiting parent).semidominator other) other :=
    swept.found
  refine foldlM_eq_some (fun resolved => ∃ done,
      Resolving graph numbering bound (state.withoutWaiting parent) done resolved)
    ?_ _ ⟨[], swept.resolving_start⟩
  rintro resolved ⟨done, resolving⟩ waiter member
  rcases swept.waits parent waiter member with ⟨high, atParent, -⟩
  exact ⟨resolving.resolve?_eq search housed swept.immediateSized (Nat.zero_lt_of_lt high),
    _, resolving.resolve search last isParent found swept.immediateSized high atParent⟩

private theorem Swept.step?_eq (swept : Swept graph numbering (bound + 1) none state)
    (last : numbering.number node = bound + 1) (later : 0 < bound) :
    state.step? numbering graph.predecessorLists node =
      some (state.step numbering graph.predecessorLists node) := by
  obtain ⟨parent, isParent⟩ := search.hasParent node (by omega)
  have reached : 0 < numbering.number node := by omega
  have parentReached := (search.parent node parent isParent).1
  have inLists : node < graph.predecessorLists.size := by
    rw [graph.size_predecessorLists, ← search.sized]
    exact lt_size_of_reached reached
  have linked := swept.link search last isParent
  have inWaiting := linked.waitingSized.symm ▸ lt_size_of_reached parentReached
  rw [← last] at swept
  have improved := swept.improve?_foldl search reached
  have improving := swept.improving_foldl search reached
  rw [step?, bind_of_eq_some (parents_at isParent), bind_of_eq_some (Eq.refl (some parent)),
    bind_of_eq_some (getElem?_eq_some_getD inLists []), bind_of_eq_some improved,
    bind_of_eq_some (linkBelow?_eq (improving.housed swept)
      (improving.waiting ▸ swept.waitingSized) improving.forest.ancestorsSized reached),
    bind_of_eq_some (getElem?_eq_some_getD inWaiting []), bind_of_eq_some (putAt?_eq inWaiting []),
    Semidominance.step, isParent]
  exact linked.resolve?_foldl search last isParent

private theorem sweep?_eq :
    sweep? numbering graph.predecessorLists graph.size =
      some (sweep numbering graph.predecessorLists graph.size) := by
  have folded : ∀ (nodes : List Nat) (bound : Nat), 0 < bound →
      bound + nodes.length = numbering.count →
      (∀ index node, nodes[index]? = some node → numbering.number node = bound + index + 1) →
      nodes.foldrM (fun node state => state.step? numbering graph.predecessorLists node)
          (initial graph.size) =
        some (nodes.foldr (fun node state => state.step numbering graph.predecessorLists node)
          (initial graph.size)) := by
    intro nodes
    induction nodes with
    | nil => exact fun bound _ _ _ => rfl
    | cons node nodes induction =>
        intro bound positive all numbered
        rw [List.length_cons] at all
        have tail : ∀ index other, nodes[index]? = some other →
            numbering.number other = bound + 1 + index + 1 := fun index other found => by
          rw [numbered (index + 1) other found]
          omega
        have rest := swept_foldr search nodes (bound + 1) (Nat.succ_pos _) (by omega) tail
        rw [List.foldrM_cons, bind_of_eq_some (induction (bound + 1) (Nat.succ_pos _) (by omega)
          tail), List.foldr_cons]
        exact rest.step?_eq search (numbered 0 node rfl) positive
  rw [sweep?, sweep, List.foldlM_reverse, List.foldl_reverse]
  exact folded _ 1 Nat.one_pos (length_drop search) (number_drop search)

end

/-! ## The ascending sweep -/

variable {immediate : Array (Option Nat)}

def settle? (state : Semidominance) (immediate : Array (Option Nat)) (node : Nat) :
    Option (Array (Option Nat)) := do
  let current ← immediate[node]?
  if current = some (← state.semidominators[node]?) then
    return immediate
  else
    putAt? immediate node (← immediate[← current]?)

private theorem Resolved.reached {dominator : Nat}
    (resolved : Resolved graph numbering node dominator) : 0 < numbering.number dominator := by
  rcases resolved with ⟨semidominator, own, ⟨rfl, -⟩ | ⟨-, between, -⟩⟩
  · exact own.candidate.1
  · exact Nat.zero_lt_of_lt between.after

section

variable (search : DepthFirst graph entry numbering) (swept : Swept graph numbering 1 none state)

include search swept

private theorem Settled.settle?_eq (settled : Settled graph entry numbering bound state immediate)
    (last : numbering.number node = bound + 1) (positive : 0 < bound) :
    state.settle? immediate node = some (state.settle immediate node) := by
  have later : 1 < numbering.number node := by omega
  have reached := Nat.zero_lt_of_lt later
  have inside : node < immediate.size := settled.sized.symm ▸ lt_size_of_reached reached
  rcases resolved_of_swept search swept later with ⟨current, isCurrent, resolved⟩
  have found : immediate.getD node none = some current := by
    rw [settled.kept node (.inr (by omega)), isCurrent]
  have inImmediate : current < immediate.size :=
    settled.sized.symm ▸ lt_size_of_reached resolved.reached
  rw [settle?, bind_of_eq_some (getElem?_eq_some_getD inside none),
    bind_of_eq_some (swept.housed.semidominator_at reached), Semidominance.settle, found]
  split
  · rfl
  · rw [bind_of_eq_some (Eq.refl (some current)),
      bind_of_eq_some (getElem?_eq_some_getD inImmediate none), putAt?_eq inside]
    rfl

private theorem settle?_foldl :
    (numbering.order.toList.drop 1).foldlM state.settle? state.immediate =
      some ((numbering.order.toList.drop 1).foldl state.settle state.immediate) := by
  have folded : ∀ (nodes : List Nat) (bound : Nat) (immediate : Array (Option Nat)), 0 < bound →
      (∀ index node, nodes[index]? = some node → numbering.number node = bound + index + 1) →
      Settled graph entry numbering bound state immediate →
      nodes.foldlM state.settle? immediate = some (nodes.foldl state.settle immediate) := by
    intro nodes
    induction nodes with
    | nil => exact fun bound immediate _ _ _ => rfl
    | cons node nodes induction =>
        intro bound immediate positive numbered settled
        have last := numbered 0 node rfl
        rw [List.foldlM_cons, bind_of_eq_some (settled.settle?_eq search swept last positive),
          List.foldl_cons]
        refine induction (bound + 1) _ (Nat.succ_pos _) (fun index other found => ?_)
          (settled.settle search swept last positive)
        rw [numbered (index + 1) other found]
        omega
  exact folded _ 1 _ Nat.one_pos (number_drop search) (settled_start swept)

end

end Semidominance

/-! ## The tree -/

namespace DominatorTree

def compute? (graph : Adjacency) (roots : List Nat) : Option DominatorTree := do
  let root := graph.size
  let rooted := graph.withVirtualRoot roots
  let predecessors ← rooted.predecessorLists?
  let numbering ← ofSearch? rooted root
  let state ← Semidominance.sweep? numbering predecessors rooted.size
  let settled ← (numbering.order.toList.drop 1).foldlM state.settle? state.immediate
  let immediate ← putAt? settled root (some root)
  return { root, immediate }

/-- Computing the dominators of a graph uses no index outside a table. -/
theorem compute?_eq {roots : List Nat} (inRange : graph.InRange)
    (rootsInRange : ∀ root ∈ roots, root < graph.size) :
    compute? graph roots = some (compute graph roots) := by
  have inRooted := Adjacency.inRange_withVirtualRoot inRange rootsInRange
  have inGraph : graph.size < (graph.withVirtualRoot roots).size := by
    rw [Adjacency.size_withVirtualRoot]
    exact Nat.lt_succ_self _
  have search := depthFirst_rooted inRange rootsInRange
  have swept := Semidominance.swept_sweep search
  have inSettled := (Semidominance.settled_foldl search swept).sized.symm ▸
    search.sized.symm ▸ inGraph
  rw [compute?, bind_of_eq_some (Adjacency.predecessorLists?_eq inRooted),
    bind_of_eq_some (ofSearch?_eq inRooted inGraph),
    bind_of_eq_some (Semidominance.sweep?_eq search),
    bind_of_eq_some (Semidominance.settle?_foldl search swept),
    bind_of_eq_some (putAt?_eq inSettled _)]
  rfl

-- an edge to a node that is not there
example : (compute? ⟨#[[1], [3]]⟩ [0]).isNone = true := by decide

end DominatorTree

end SlotVersioning
