import SlotVersioning.Proofs.Checked.Dominators
import SlotVersioning.Proofs.Graph.Leading

/-!
# Version graphs within bounds

The edits of the version graph with every position checked. A graph is in range when its index and
its edges name positions of nodes. Every edit keeps that, and an edit of a graph in range refuses
nothing if it is given positions of nodes.
-/

namespace SlotVersioning

namespace VersionGraph

variable {graph : VersionGraph} {position source target : Nat}

/-- All positions that the graph stores are those of nodes. -/
structure InRange (graph : VersionGraph) : Prop where
  indexed : ∀ key position, graph.position? key = some position → position < graph.size
  predecessors : ∀ (position : Nat) (node : VersionNode), graph.nodes[position]? = some node →
    ∀ source ∈ node.predecessors, source < graph.size
  successors : ∀ (position : Nat) (node : VersionNode), graph.nodes[position]? = some node →
    ∀ target ∈ node.successors, target < graph.size

theorem inRange_empty : ({} : VersionGraph).InRange where
  indexed := fun _ _ found => nomatch Std.ExtTreeMap.getElem?_empty.symm.trans found
  predecessors := fun _ _ stored => nomatch stored
  successors := fun _ _ stored => nomatch stored

theorem exists_at (inside : position < graph.size) :
    ∃ node, graph.nodes[position]? = some node :=
  ⟨_, Array.getElem?_eq_getElem inside⟩

theorem predecessorsAt_of_stored {node : VersionNode}
    (stored : graph.nodes[position]? = some node) :
    graph.predecessorsAt position = node.predecessors := by
  rw [predecessorsAt, stored]
  rfl

theorem successorsAt_of_stored {node : VersionNode} (stored : graph.nodes[position]? = some node) :
    graph.successorsAt position = node.successors := by
  rw [successorsAt, stored]
  rfl

/-! ## Editing a node -/

def editAt? (graph : VersionGraph) (position : Nat) (edit : VersionNode → VersionNode) :
    Option VersionGraph := do
  return { graph with nodes := ← modifyAt? graph.nodes position edit }

theorem editAt?_eq (inside : position < graph.size) (edit : VersionNode → VersionNode) :
    graph.editAt? position edit = some (graph.editAt position edit) := by
  rw [editAt?, bind_of_eq_some (modifyAt?_eq inside edit)]
  rfl

@[simp]
theorem size_editAt (graph : VersionGraph) (position : Nat) (edit : VersionNode → VersionNode) :
    (graph.editAt position edit).size = graph.size := Array.size_modify

/-- An edit that adds no position outside the graph keeps it in range. -/
theorem InRange.editAt (inRange : graph.InRange) {edit : VersionNode → VersionNode}
    (predecessors : ∀ node, ∀ source ∈ (edit node).predecessors,
      source ∈ node.predecessors ∨ source < graph.size)
    (successors : ∀ node, ∀ target ∈ (edit node).successors,
      target ∈ node.successors ∨ target < graph.size) :
    (graph.editAt position edit).InRange := by
  constructor
  case indexed =>
    rw [size_editAt]
    exact inRange.indexed
  case predecessors =>
    intro place node stored source member
    rw [getElem?_editAt] at stored
    rw [size_editAt]
    split at stored
    · rcases Option.map_eq_some_iff.1 stored with ⟨before, found, rfl⟩
      exact (predecessors before source member).elim
        (inRange.predecessors place before found source) id
    · exact inRange.predecessors place node stored source member
  case successors =>
    intro place node stored target member
    rw [getElem?_editAt] at stored
    rw [size_editAt]
    split at stored
    · rcases Option.map_eq_some_iff.1 stored with ⟨before, found, rfl⟩
      exact (successors before target member).elim (inRange.successors place before found target) id
    · exact inRange.successors place node stored target member

/-! ## Nodes -/

def ensure? (graph : VersionGraph) (key : VersionKey) (origin : VersionOrigin)
    (debugName : Option DebugName := none) : Option (VersionGraph × Nat) :=
  match graph.position? key with
  | some position => do
      let edited ← graph.editAt? position fun node =>
        { node with debugName := node.debugName.or debugName }
      return (edited, position)
  | none =>
      some ({ graph with
          nodes := graph.nodes.push { key, origin, debugName }
          index := graph.index.insert key graph.size }, graph.size)

def withLive? (graph : VersionGraph) (key : VersionKey) (facts : Facts) : Option VersionGraph :=
  match graph.position? key with
  | some position => graph.editAt? position fun node => { node with live := some facts }
  | none => some graph

theorem size_le_ensure (graph : VersionGraph) (key : VersionKey) (origin : VersionOrigin)
    (debugName : Option DebugName) :
    graph.size ≤ (graph.ensure key origin debugName).1.size := by
  rw [ensure]
  split
  · exact Nat.le_of_eq (size_editAt ..).symm
  · exact Nat.le_trans (Nat.le_succ _) (Nat.le_of_eq (Array.size_push _).symm)

namespace InRange

variable (inRange : graph.InRange) (key : VersionKey) (origin : VersionOrigin)
variable (debugName : Option DebugName)

include inRange

theorem ensure?_eq :
    graph.ensure? key origin debugName = some (graph.ensure key origin debugName) := by
  rw [ensure?, VersionGraph.ensure]
  cases known : graph.position? key with
  | none => rfl
  | some position => exact bind_of_eq_some (editAt?_eq (inRange.indexed key position known) _) _

theorem ensure_lt_size :
    (graph.ensure key origin debugName).2 < (graph.ensure key origin debugName).1.size := by
  rw [VersionGraph.ensure]
  cases known : graph.position? key with
  | none => exact Nat.lt_of_lt_of_eq (Nat.lt_succ_self _) (Array.size_push _).symm
  | some position => exact (inRange.indexed key position known).trans_eq (size_editAt ..).symm

theorem ensure : (graph.ensure key origin debugName).1.InRange := by
  rw [VersionGraph.ensure]
  cases known : graph.position? key with
  | some position => exact inRange.editAt (fun _ _ member => .inl member) fun _ _ => .inl
  | none =>
      have sized : ∀ {place}, place < graph.size → place < (graph.nodes.push
          { key, origin, debugName }).size := fun inside =>
        Nat.lt_of_lt_of_eq (Nat.lt_succ_of_lt inside) (Array.size_push _).symm
      constructor
      case indexed =>
        intro other position found
        change (graph.index.insert key graph.size)[other]? = some position at found
        rw [Std.ExtTreeMap.getElem?_insert] at found
        split at found
        · cases found
          exact Nat.lt_of_lt_of_eq (Nat.lt_succ_self _) (Array.size_push _).symm
        · exact sized (inRange.indexed other position found)
      case predecessors =>
        intro position node stored source member
        rw [Array.getElem?_push] at stored
        split at stored
        · cases stored
          exact nomatch member
        · exact sized (inRange.predecessors position node stored source member)
      case successors =>
        intro position node stored target member
        rw [Array.getElem?_push] at stored
        split at stored
        · cases stored
          exact nomatch member
        · exact sized (inRange.successors position node stored target member)

theorem withLive?_eq (facts : Facts) :
    graph.withLive? key facts = some (graph.withLive key facts) := by
  rw [withLive?, VersionGraph.withLive]
  cases known : graph.position? key with
  | none => rfl
  | some position => exact editAt?_eq (inRange.indexed key position known) _

theorem withLive (facts : Facts) : (graph.withLive key facts).InRange := by
  rw [VersionGraph.withLive]
  cases graph.position? key with
  | none => exact inRange
  | some position => exact inRange.editAt (fun _ _ member => .inl member) fun _ _ => .inl

end InRange

@[simp]
theorem size_withLive (graph : VersionGraph) (key : VersionKey) (facts : Facts) :
    (graph.withLive key facts).size = graph.size := by
  rw [withLive]
  split
  · exact size_editAt ..
  · rfl

/-! ## Edges -/

def link? (graph : VersionGraph) (source target : Nat) : Option VersionGraph := do
  if (← graph.nodes[source]?).successors.contains target then
    return graph
  else
    (← graph.editAt? source fun node =>
      { node with successors := node.successors ++ [target] }).editAt? target fun node =>
      { node with predecessors := node.predecessors ++ [source] }

def unlink? (graph : VersionGraph) (source target : Nat) : Option VersionGraph := do
  (← graph.editAt? source fun node =>
    { node with successors := node.successors.filter (· != target) }).editAt? target fun node =>
    { node with predecessors := node.predecessors.filter (· != source) }

@[simp]
theorem size_link (graph : VersionGraph) (source target : Nat) :
    (graph.link source target).size = graph.size := by
  rw [link]
  split
  · rfl
  · rw [size_editAt, size_editAt]

@[simp]
theorem size_unlink (graph : VersionGraph) (source target : Nat) :
    (graph.unlink source target).size = graph.size := by
  rw [unlink, size_editAt, size_editAt]

theorem link?_eq (sourceInside : source < graph.size) (targetInside : target < graph.size) :
    graph.link? source target = some (graph.link source target) := by
  rcases exists_at sourceInside with ⟨node, stored⟩
  rw [link?, bind_of_eq_some stored, link, successorsAt_of_stored stored]
  split
  · rfl
  · rw [bind_of_eq_some (editAt?_eq sourceInside _)]
    exact editAt?_eq (targetInside.trans_eq (size_editAt ..).symm) _

private theorem unlink?_eq (sourceInside : source < graph.size)
    (targetInside : target < graph.size) :
    graph.unlink? source target = some (graph.unlink source target) := by
  rw [unlink?, bind_of_eq_some (editAt?_eq sourceInside _)]
  exact editAt?_eq (targetInside.trans_eq (size_editAt ..).symm) _

private theorem old_or_lt {positions : List Nat} {added bound : Nat}
    (member : position ∈ positions ++ [added]) (inside : added < bound) :
    position ∈ positions ∨ position < bound := by
  rcases List.mem_append.1 member with old | last
  · exact .inl old
  · exact .inr (List.mem_singleton.1 last ▸ inside)

theorem InRange.link (inRange : graph.InRange) (sourceInside : source < graph.size)
    (targetInside : target < graph.size) : (graph.link source target).InRange := by
  rw [VersionGraph.link]
  split
  · exact inRange
  · have first : (graph.editAt source fun node =>
        { node with successors := node.successors ++ [target] }).InRange :=
      inRange.editAt (fun _ _ member => .inl member) fun _ _ member =>
        old_or_lt member targetInside
    exact first.editAt (fun _ _ member =>
      old_or_lt member (sourceInside.trans_eq (size_editAt ..).symm)) fun _ _ => .inl

theorem InRange.unlink (inRange : graph.InRange) (source target : Nat) :
    (graph.unlink source target).InRange := by
  have first : (graph.editAt source fun node =>
      { node with successors := node.successors.filter (· != target) }).InRange :=
    inRange.editAt (fun _ _ member => .inl member) fun _ _ member =>
      .inl (List.mem_filter.1 member).1
  exact first.editAt (fun _ _ member => .inl (List.mem_filter.1 member).1) fun _ _ => .inl

/-! ## Inputs -/

/-- The version that a node with the given predecessors carries, if it is a phi input. -/
def carried? (graph : VersionGraph) : (predecessors : List Nat) → Option (Option VersionKey)
  | [] => some none
  | first :: _ => do return some (← graph.nodes[first]?).key

/-- The version that a phi input carries, nothing for any other node. -/
def carriedInput? (graph : VersionGraph) (position : Nat) : Option (Option Version) := do
  let node ← graph.nodes[position]?
  if node.origin == .phiInput then
    return (← graph.carried? node.predecessors).map VersionKey.version
  else
    return none

def pruneInputs? (graph : VersionGraph) (target : Nat) (wanted : Version → Bool) :
    Option (VersionGraph × VersionSet) := do
  (← graph.nodes[target]?).predecessors.foldlM (fun (graph, wired) predecessor => do
    match (← graph.carriedInput? predecessor).filter wanted with
    | some source => return (graph, insert source wired)
    | none => return (← graph.unlink? predecessor target, wired)) (graph, ∅)

def addInput? (graph : VersionGraph) (source input : VersionKey) (target : Nat) :
    Option VersionGraph := do
  let (graph, origin) ← graph.ensure? source .definition
  let (graph, way) ← graph.ensure? input .phiInput
  (← graph.link? origin way).link? way target

/-- The version that flows on from a node, a phi input passing on what it carries. -/
def flowing? (graph : VersionGraph) (position : Nat) : Option (Option VersionKey) := do
  let node ← graph.nodes[position]?
  if node.origin == .phiInput then graph.carried? node.predecessors else return some node.key

def sourcesAt? (graph : VersionGraph) (position : Nat) : Option VersionSet := do
  (← graph.nodes[position]?).predecessors.foldlM (fun sources predecessor => do
    match ← graph.flowing? predecessor with
    | some key => return insert key.version sources
    | none => return sources) ∅

namespace InRange

variable (inRange : graph.InRange)

include inRange

theorem carried?_eq {node : VersionNode} (stored : graph.nodes[position]? = some node) :
    graph.carried? node.predecessors = some (graph.carriedAt position) := by
  rw [carriedAt, predecessorsAt_of_stored stored]
  cases listed : node.predecessors with
  | nil => rfl
  | cons first rest =>
      have inside := inRange.predecessors position node stored first (listed ▸ List.mem_cons_self)
      rcases exists_at inside with ⟨carried, found⟩
      rw [carried?, bind_of_eq_some found, List.head?_cons, bind_of_eq_some rfl,
        bind_of_eq_some found]
      rfl

private theorem carriedInput?_eq (inside : position < graph.size) :
    graph.carriedInput? position = some (graph.inputSource? position) := by
  rcases exists_at inside with ⟨node, stored⟩
  rw [carriedInput?, bind_of_eq_some stored, inputSource?, isPhiInputAt, stored, Option.any_some]
  split
  · rw [bind_of_eq_some (inRange.carried?_eq stored)]
    rfl
  · rfl

/-- Pruning the inputs of a node keeps the graph in range and its size. -/
theorem pruneInputs (target : Nat) (wanted : Version → Bool) :
    (graph.pruneInputs target wanted).1.InRange ∧
      (graph.pruneInputs target wanted).1.size = graph.size := by
  refine List.foldlRecOn (motive := fun pruned : VersionGraph × VersionSet =>
    pruned.1.InRange ∧ pruned.1.size = graph.size) _ _ ⟨inRange, rfl⟩ ?_
  rintro ⟨between, wired⟩ ⟨kept, sized⟩ predecessor member
  dsimp only
  split
  · exact ⟨kept, sized⟩
  · exact ⟨kept.unlink _ _, (size_unlink ..).trans sized⟩

theorem pruneInputs?_eq (inside : target < graph.size) (wanted : Version → Bool) :
    graph.pruneInputs? target wanted = some (graph.pruneInputs target wanted) := by
  rcases exists_at inside with ⟨node, stored⟩
  rw [pruneInputs?, bind_of_eq_some stored, VersionGraph.pruneInputs,
    predecessorsAt_of_stored stored]
  refine foldlM_eq_some (fun pruned : VersionGraph × VersionSet =>
    pruned.1.InRange ∧ pruned.1.size = graph.size) ?_ _ ⟨inRange, rfl⟩
  rintro ⟨between, wired⟩ ⟨kept, sized⟩ predecessor member
  have inBetween : predecessor < between.size :=
    sized ▸ inRange.predecessors target node stored predecessor member
  dsimp only
  rw [bind_of_eq_some (kept.carriedInput?_eq inBetween)]
  cases (between.inputSource? predecessor).filter wanted with
  | some source => exact ⟨rfl, kept, sized⟩
  | none => exact ⟨bind_of_eq_some (unlink?_eq inBetween (sized.symm ▸ inside)) _,
      kept.unlink _ _, (size_unlink ..).trans sized⟩

private theorem flowing?_eq (inside : position < graph.size) :
    graph.flowing? position =
      some (if graph.isPhiInputAt position then graph.carriedAt position
        else (graph.keysAt [position]).head?) := by
  rcases exists_at inside with ⟨node, stored⟩
  rw [flowing?, bind_of_eq_some stored, isPhiInputAt, stored, Option.any_some]
  split
  · exact inRange.carried?_eq stored
  · rw [keysAt, List.filterMap_cons, stored]
    rfl

theorem sourcesAt?_eq (inside : position < graph.size) :
    graph.sourcesAt? position = some (graph.sourcesAt position) := by
  rcases exists_at inside with ⟨node, stored⟩
  rw [sourcesAt?, bind_of_eq_some stored, sourcesAt, predecessorsAt_of_stored stored]
  refine foldlM_eq_some (fun _ => True) ?_ _ trivial
  rintro sources - predecessor member
  rw [bind_of_eq_some (inRange.flowing?_eq
    (inRange.predecessors position node stored predecessor member))]
  refine ⟨?_, trivial⟩
  cases (if graph.isPhiInputAt predecessor then graph.carriedAt predecessor
    else (graph.keysAt [predecessor]).head?) with
  | some key => rfl
  | none => rfl

end InRange

/-- A new input of a node: what is needed, and what is kept. -/
theorem InRange.addInput (inRange : graph.InRange) (source input : VersionKey)
    (inside : target < graph.size) :
    graph.addInput? source input target = some (graph.addInput source input target) ∧
      (graph.addInput source input target).InRange ∧
      graph.size ≤ (graph.addInput source input target).size := by
  have first := inRange.ensure source .definition none
  have grown := graph.size_le_ensure source .definition none
  have origin := inRange.ensure_lt_size source .definition none
  rw [addInput?, bind_of_eq_some (inRange.ensure?_eq source .definition none),
    VersionGraph.addInput]
  dsimp only
  generalize graph.ensure source .definition none = sourced at first grown origin ⊢
  have second := first.ensure input .phiInput none
  have further := sourced.1.size_le_ensure input .phiInput none
  have way := first.ensure_lt_size input .phiInput none
  rw [bind_of_eq_some (first.ensure?_eq input .phiInput none)]
  generalize sourced.1.ensure input .phiInput none = entered at second further way ⊢
  have originInside := Nat.lt_of_lt_of_le origin further
  have targetInside := Nat.lt_of_lt_of_le inside (Nat.le_trans grown further)
  have linked := second.link originInside way
  have sized := size_link entered.1 sourced.2 entered.2
  rw [bind_of_eq_some (link?_eq originInside way)]
  refine ⟨link?_eq (sized.symm ▸ way) (sized.symm ▸ targetInside),
    linked.link (sized.symm ▸ way) (sized.symm ▸ targetInside), ?_⟩
  rw [size_link, sized]
  exact Nat.le_trans grown further

/-! ## Dominators -/

def computeDominators? (graph : VersionGraph) : Option VersionGraph := do
  let roots ← (List.range graph.size).filterM fun position => do
    return (← graph.nodes[position]?).predecessors.isEmpty
  return { graph with dominators := some (← DominatorTree.compute? graph.adjacency roots) }

private theorem InRange.adjacency (inRange : graph.InRange) : graph.adjacency.InRange := by
  intro position target edge
  have inside := Adjacency.lt_size_of_edge edge
  rw [size_adjacency] at inside ⊢
  rcases exists_at inside with ⟨node, stored⟩
  rw [successors_adjacency, successorsAt_of_stored stored] at edge
  exact inRange.successors position node stored target edge

theorem InRange.computeDominators?_eq (inRange : graph.InRange) :
    graph.computeDominators? = some graph.computeDominators := by
  have roots : ((List.range graph.size).filterM fun position => do
      return (← graph.nodes[position]?).predecessors.isEmpty) = some graph.rootPositions := by
    refine filterM_eq_some fun position member => ?_
    rcases exists_at (List.mem_range.1 member) with ⟨node, stored⟩
    rw [bind_of_eq_some stored, predecessorsAt_of_stored stored]
    rfl
  have inGraph : ∀ root ∈ graph.rootPositions, root < graph.adjacency.size := fun root member =>
    size_adjacency graph ▸ (mem_rootPositions.1 member).1
  rw [computeDominators?, bind_of_eq_some roots,
    bind_of_eq_some (DominatorTree.compute?_eq inRange.adjacency inGraph)]
  rfl

theorem InRange.computeDominators (inRange : graph.InRange) : graph.computeDominators.InRange :=
  ⟨inRange.indexed, inRange.predecessors, inRange.successors⟩

end VersionGraph

end SlotVersioning
