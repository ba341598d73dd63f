import SlotVersioning.Proofs.Dominance.Sweep
import SlotVersioning.Proofs.Dominance.Traversal

/-!
# Searching within bounds

The tables of the dominator algorithm are arrays, and an index outside an array would abort the
run. Here are the operations that refuse such an index, and the predecessor lists and the
depth-first search in terms of them. Nothing is refused if the edges of a graph stay within it.
-/

namespace SlotVersioning

variable {α β : Type}

/-! ## Operations that may refuse -/

/-- Replaces an element, and refuses a position outside the array. -/
def putAt? (array : Array α) (position : Nat) (value : α) : Option (Array α) :=
  if position < array.size then some (array.setIfInBounds position value) else none

/-- Changes an element, and refuses a position outside the array. -/
def modifyAt? (array : Array α) (position : Nat) (change : α → α) : Option (Array α) :=
  if position < array.size then some (array.modify position change) else none

/-- What is not refused is passed on. -/
theorem bind_of_eq_some {first : Option α} {value : α} (found : first = some value)
    (next : α → Option β) : first >>= next = next value := by
  rw [found]
  rfl

theorem getElem?_eq_some_getD {array : Array α} {position : Nat} (inside : position < array.size)
    (default : α) : array[position]? = some (array.getD position default) := by
  rw [Array.getD_eq_getD_getElem?, Array.getElem?_eq_getElem inside, Option.getD_some]

theorem putAt?_eq {array : Array α} {position : Nat} (inside : position < array.size)
    (value : α) : putAt? array position value = some (array.setIfInBounds position value) :=
  if_pos inside

theorem modifyAt?_eq {array : Array α} {position : Nat} (inside : position < array.size)
    (change : α → α) : modifyAt? array position change = some (array.modify position change) :=
  if_pos inside

/-- A loop refuses nothing if its steps do not, as long as what they rely on lasts. -/
theorem foldlM_eq_some {checked : β → α → Option β} {step : β → α → β} (holds : β → Prop)
    {list : List α} (each : ∀ state, holds state → ∀ value ∈ list,
      checked state value = some (step state value) ∧ holds (step state value)) :
    ∀ start, holds start → list.foldlM checked start = some (list.foldl step start) := by
  induction list with
  | nil => exact fun start _ => rfl
  | cons head tail induction =>
      intro start begun
      rcases each start begun head List.mem_cons_self with ⟨same, next⟩
      rw [List.foldlM_cons, bind_of_eq_some same, List.foldl_cons]
      exact induction (fun state lasts value member =>
        each state lasts value (List.mem_cons_of_mem _ member)) _ next

private theorem filterAuxM_eq_some {checked : α → Option Bool} {keep : α → Bool} {list : List α}
    (each : ∀ value ∈ list, checked value = some (keep value)) :
    ∀ front, list.filterAuxM checked front = some ((list.filter keep).reverse ++ front) := by
  induction list with
  | nil => exact fun front => rfl
  | cons head tail induction =>
      intro front
      rw [List.filterAuxM, bind_of_eq_some (each head List.mem_cons_self),
        induction fun value member => each value (List.mem_cons_of_mem _ member), List.filter_cons]
      cases keep head with
      | true => rw [if_pos rfl, cond_true, List.reverse_cons, List.append_assoc,
          List.singleton_append]
      | false => rfl

theorem filterM_eq_some {checked : α → Option Bool} {keep : α → Bool} {list : List α}
    (each : ∀ value ∈ list, checked value = some (keep value)) :
    list.filterM checked = some (list.filter keep) := by
  rw [List.filterM, bind_of_eq_some (filterAuxM_eq_some each []), List.append_nil,
    List.reverse_reverse]
  rfl

/-! ## Predecessor lists -/

namespace Adjacency

variable {graph : Adjacency}

def predecessorLists? (graph : Adjacency) : Option (Array (List Nat)) :=
  graph.edges.reverse.foldlM
    (fun lists (source, target) => modifyAt? lists target (source :: ·))
    (Array.replicate graph.size [])

theorem predecessorLists?_eq (inRange : graph.InRange) :
    graph.predecessorLists? = some graph.predecessorLists := by
  refine foldlM_eq_some (fun lists => lists.size = graph.size) ?_ _ Array.size_replicate
  rintro lists sized ⟨source, target⟩ member
  have edge := mem_edges.1 (List.mem_reverse.1 member)
  exact ⟨modifyAt?_eq (sized ▸ inRange source target edge) _, Array.size_modify.trans sized⟩

theorem size_predecessorLists (graph : Adjacency) :
    graph.predecessorLists.size = graph.size := by
  rw [predecessorLists_eq]
  refine List.foldlRecOn (motive := fun lists : Array (List Nat) => lists.size = graph.size) _ _
    Array.size_replicate fun lists sized edge _ => ?_
  exact Array.size_modify.trans sized

end Adjacency

/-! ## The search -/

namespace Numbering

variable {graph : Adjacency} {entry node : Nat} {numbering : Numbering}
variable {pending : List (Nat × Option Nat)}

/-- Gives `node` the next number. The order of the numbers has as many places as there are nodes. -/
def visit? (numbering : Numbering) (node : Nat) (parent : Option Nat) : Option Numbering := do
  let numbers ← putAt? numbering.numbers node (numbering.count + 1)
  let parents ← putAt? numbering.parents node parent
  if numbering.count < numbering.numbers.size then
    return { numbers, order := numbering.order.push node, parents }
  else
    none

/-- A search that has to end with no node pending. -/
def explore? (graph : Adjacency) :
    (fuel : Nat) → List (Nat × Option Nat) → Numbering → Option Numbering
  | _, [], numbering => some numbering
  | 0, _ :: _, _ => none
  | fuel + 1, (node, parent) :: pending, numbering => do
      let number ← numbering.numbers[node]?
      if number != 0 then
        explore? graph fuel pending numbering
      else
        let visited ← numbering.visit? node parent
        let successors ← graph.lists[node]?
        let unseen ← successors.filterM fun successor => do
          return (← visited.numbers[successor]?) == 0
        explore? graph fuel (unseen.map (·, some node) ++ pending) visited

def ofSearch? (graph : Adjacency) (entry : Nat) : Option Numbering :=
  explore? graph (graph.edgeCount + 1) [(entry, none)] (initial graph.size)

private theorem visit?_eq (inNumbers : node < numbering.numbers.size)
    (inParents : node < numbering.parents.size) (room : numbering.count < numbering.numbers.size)
    (parent : Option Nat) : numbering.visit? node parent = some (numbering.visit node parent) := by
  rw [visit?, bind_of_eq_some (putAt?_eq inNumbers _), bind_of_eq_some (putAt?_eq inParents _),
    if_pos room]
  rfl

private theorem explore?_skip (inNumbers : node < numbering.numbers.size)
    (reached : numbering.isReached node = true) (fuel : Nat) (parent : Option Nat) :
    explore? graph (fuel + 1) ((node, parent) :: pending) numbering =
      explore? graph fuel pending numbering := by
  rw [explore?, bind_of_eq_some (getElem?_eq_some_getD inNumbers 0)]
  exact if_pos reached

theorem explore?_visit (inRange : graph.InRange) (sized : numbering.numbers.size = graph.size)
    (parentsSized : numbering.parents.size = graph.size) (inGraph : node < graph.size)
    (room : numbering.count < numbering.numbers.size)
    (unreached : numbering.number node = 0) (fuel : Nat) (parent : Option Nat) :
    explore? graph (fuel + 1) ((node, parent) :: pending) numbering =
      explore? graph fuel (pushed graph (numbering.visit node parent) node ++ pending)
        (numbering.visit node parent) := by
  have inNumbers : node < numbering.numbers.size := sized ▸ inGraph
  have unseen : (graph.successors node).filterM (fun successor => do
        return (← (numbering.visit node parent).numbers[successor]?) == 0) =
      some ((graph.successors node).filter fun successor =>
        !(numbering.visit node parent).isReached successor) := by
    refine filterM_eq_some fun successor member => ?_
    have inside : successor < (numbering.visit node parent).numbers.size := by
      rw [visit, Array.size_setIfInBounds, sized]
      exact inRange node successor member
    rw [getElem?_eq_some_getD inside 0, isReached, number]
    simp [bne]
  have found : graph.lists[node]? = some (graph.successors node) := getElem?_eq_some_getD inGraph []
  rw [explore?, bind_of_eq_some (getElem?_eq_some_getD inNumbers 0),
    show numbering.numbers.getD node 0 = 0 from unreached, if_neg (by simp),
    bind_of_eq_some (visit?_eq inNumbers (parentsSized ▸ inGraph) room parent),
    bind_of_eq_some found, bind_of_eq_some unseen]
  rfl

/-- A node that is still to be numbered finds a place in the order. -/
private theorem Searching.room {parent : Nat}
    (searching : Searching graph entry ((node, some parent) :: pending) numbering)
    (inRange : graph.InRange) (unreached : numbering.number node = 0) :
    numbering.count < numbering.numbers.size := by
  have visited := searching.visit inRange unreached
  have counted := count_le_size visited.order
  rw [count_visit, visited.sized, ← searching.sized] at counted
  exact counted

private theorem Searching.explore?_eq (inRange : graph.InRange) (fuel : Nat) :
    ∀ {pending : List (Nat × Option Nat)} {numbering : Numbering},
      Searching graph entry pending numbering →
      pending.length + openEdges graph numbering ≤ fuel →
      explore? graph fuel pending numbering =
        some (Numbering.explore graph fuel pending numbering) := by
  induction fuel with
  | zero =>
      intro pending numbering searching enough
      obtain rfl : pending = [] := List.length_eq_zero_iff.mp (by omega)
      rfl
  | succ fuel induction =>
      intro pending numbering searching enough
      match pending with
      | [] => rfl
      | (node, parent) :: pending =>
          rw [List.length_cons] at enough
          obtain ⟨above, rfl, -⟩ := searching.waiting _ _ List.mem_cons_self
          have inGraph := searching.fresh_lt inRange
          by_cases zero : numbering.number node = 0
          · have balance := openEdges_visit (searching.sized ▸ inGraph) inGraph zero (some above)
            have pushes := length_pushed_le graph (numbering.visit node (some above)) node
            rw [explore_visit zero, explore?_visit inRange searching.sized searching.parentsSized
              inGraph (searching.room inRange zero) zero]
            exact induction (searching.visit inRange zero) (by rw [List.length_append]; omega)
          · have reached : numbering.isReached node = true := by simpa [isReached] using zero
            rw [Numbering.explore, if_pos reached,
              explore?_skip (searching.sized ▸ inGraph) reached]
            exact induction (searching.skip reached) (by omega)

theorem ofSearch?_eq (inRange : graph.InRange) (inGraph : entry < graph.size) :
    ofSearch? graph entry = some (ofSearch graph entry) := by
  have unreached := number_initial graph.size entry
  have sized : (initial graph.size).numbers.size = graph.size := Array.size_replicate
  have opened : openEdges graph (initial graph.size) = graph.edgeCount := by
    simp [openEdges, number_initial, edgeCount_eq_sum]
  have inNumbers : entry < (initial graph.size).numbers.size := sized.symm ▸ inGraph
  have balance := openEdges_visit inNumbers inGraph unreached none
  have pushes := length_pushed_le graph ((initial graph.size).visit entry none) entry
  rw [ofSearch, ofSearch?, explore_visit unreached,
    explore?_visit inRange sized Array.size_replicate inGraph (Nat.zero_lt_of_lt inNumbers)
      unreached, List.append_nil]
  exact (searching_entered inGraph).explore?_eq inRange _ (by omega)

end Numbering

end SlotVersioning
