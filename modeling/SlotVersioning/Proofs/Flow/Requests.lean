import SlotVersioning.Proofs.Sequences
import SlotVersioning.Proofs.Flow.Built

/-!
# Flow graphs from requests

Requests to add nodes, expressions and edges build a flow graph in place. An edge is written at its
source first and at its target afterwards, and each write looks its node up; still no request fails
between the two (`perform_eq_checked`). So the graph stays linked after any requests, and a request
that fails leaves it as it was (`edges_builtBy`).
-/

namespace SlotVersioning

namespace FlowGraph

/-! ## Building in place -/

/-- Builds a flow graph in place. -/
abbrev BuildM := EStateM Fault FlowGraph

namespace BuildM

def node (name : NodeId) : BuildM FlowNode := do
  match (← get).node? name with
  | some node => return node
  | none => throw (.unknownNode name)

def editNode (name : NodeId) (edit : FlowNode → FlowNode) : BuildM Unit := do
  let _ ← node name
  modify fun graph => graph.editNode name edit

def addNode (kind : FlowNodeKind) (statement : StatementId) : BuildM NodeId :=
  modifyGet fun graph => (graph.addNode kind statement).swap

def appendExpression (name : NodeId) (expression : ExprId) : BuildM Unit :=
  editNode name fun node => { node with expressions := node.expressions ++ [expression] }

/-- Writes an edge at its source and then at its target. -/
def connect (source target : NodeId) : BuildM Unit := do
  let _ ← node target
  let stored ← node source
  if stored.successors.contains target then
    return ()
  else
    editNode source fun node => { node with successors := node.successors ++ [target] }
    editNode target fun node => { node with predecessors := node.predecessors ++ [source] }

end BuildM

/-- A request to build on a graph. -/
inductive Request
  | addNode (kind : FlowNodeKind) (statement : StatementId)
  | appendExpression (node : NodeId) (expression : ExprId)
  | connect (source target : NodeId)

namespace Request

/-- The nodes that a request names, in the order in which they are looked up. -/
def names : Request → List NodeId
  | addNode .. => []
  | appendExpression node _ => [node]
  | connect source target => [target, source]

/-- Carries the request out; a new node is named in the answer. -/
def perform : Request → BuildM (Option NodeId)
  | addNode kind statement => return some (← BuildM.addNode kind statement)
  | appendExpression node expression => do
      BuildM.appendExpression node expression
      return none
  | connect source target => do
      BuildM.connect source target
      return none

/-- Edits the graph if the request can be granted. -/
def edit (graph : FlowGraph) : Request → Except Fault (FlowGraph × Option NodeId)
  | addNode kind statement => .ok ((graph.addNode kind statement).map id some)
  | appendExpression node expression => (graph.appendExpression node expression).map (·, none)
  | connect source target => (graph.connect source target).map (·, none)

end Request

variable {graph next : FlowGraph} {source target node : NodeId} {request : Request}

/-! ## Looking nodes up -/

private theorem contains_of_node? {stored : FlowNode} (found : graph.node? node = some stored) :
    graph.contains node = true :=
  decide_eq_true (Array.getElem?_eq_some_iff.1 found).1

private theorem contains_editNode (graph : FlowGraph) (node other : NodeId)
    (edit : FlowNode → FlowNode) :
    (graph.editNode node edit).contains other = graph.contains other := by
  unfold contains size editNode
  rw [Array.size_modify]

namespace BuildM

theorem node_known {stored : FlowNode} (found : graph.node? node = some stored) :
    (BuildM.node node).run graph = .ok stored graph := by
  simp only [BuildM.node, EStateM.run_bind, EStateM.run_get, found, EStateM.run_pure]

theorem node_unknown (unknown : ¬ graph.contains node = true) :
    (BuildM.node node).run graph = .error (.unknownNode node) graph := by
  cases found : graph.node? node with
  | none =>
      simp only [BuildM.node, EStateM.run_bind, EStateM.run_get, found]
      rfl
  | some stored => exact absurd (contains_of_node? found) unknown

theorem editNode_known (known : graph.contains node = true) (edit : FlowNode → FlowNode) :
    (editNode node edit).run graph = .ok () (graph.editNode node edit) := by
  rcases node?_of_contains known with ⟨stored, found⟩
  simp only [editNode, EStateM.run_bind, node_known found, EStateM.run_modify]

private theorem editNode_unknown (unknown : ¬ graph.contains node = true)
    (edit : FlowNode → FlowNode) :
    (editNode node edit).run graph = .error (.unknownNode node) graph := by
  simp only [editNode, EStateM.run_bind, node_unknown unknown]

end BuildM

/-! ## Requests as checked edits -/

private theorem run_appendExpression (graph : FlowGraph) (name : NodeId) (expression : ExprId) :
    (BuildM.appendExpression name expression).run graph =
      match graph.appendExpression name expression with
      | .ok next => .ok () next
      | .error fault => .error fault graph := by
  unfold BuildM.appendExpression appendExpression
  by_cases known : graph.contains name = true
  · rw [BuildM.editNode_known known, if_pos known]
  · rw [BuildM.editNode_unknown known, if_neg known]

/-- The second write of an edge finds its node, because the first one keeps all nodes. -/
private theorem run_connect (graph : FlowGraph) (source target : NodeId) :
    (BuildM.connect source target).run graph =
      match graph.connect source target with
      | .ok next => .ok () next
      | .error fault => .error fault graph := by
  unfold BuildM.connect connect
  by_cases targetKnown : graph.contains target = true
  case neg => simp only [EStateM.run_bind, BuildM.node_unknown targetKnown, targetKnown]; rfl
  rcases node?_of_contains targetKnown with ⟨targetNode, targetFound⟩
  by_cases sourceKnown : graph.contains source = true
  case neg =>
    simp only [EStateM.run_bind, BuildM.node_known targetFound, BuildM.node_unknown sourceKnown,
      targetKnown, sourceKnown]
    rfl
  rcases node?_of_contains sourceKnown with ⟨sourceNode, sourceFound⟩
  simp only [EStateM.run_bind, BuildM.node_known targetFound, BuildM.node_known sourceFound,
    targetKnown, sourceKnown, successors_of_node sourceFound, Bool.not_true, Bool.false_eq_true,
    if_false]
  by_cases present : sourceNode.successors.contains target = true
  · simp only [present, if_true, EStateM.run_pure]
  · simp only [present, Bool.false_eq_true, if_false, EStateM.run_bind,
      BuildM.editNode_known sourceKnown]
    exact BuildM.editNode_known ((contains_editNode graph source target _).trans targetKnown) _

theorem perform_eq_checked (request : Request) :
    request.perform = Attempts.checked fun graph => request.edit graph := by
  refine Attempts.ext fun graph => ?_
  cases request with
  | addNode kind statement => rfl
  | appendExpression name expression =>
      simp only [Request.perform, EStateM.run_bind, run_appendExpression, Attempts.run_checked,
        Request.edit]
      cases graph.appendExpression name expression <;> rfl
  | connect source target =>
      simp only [Request.perform, EStateM.run_bind, run_connect, Attempts.run_checked, Request.edit]
      cases graph.connect source target <;> rfl

/-! ## What a request does -/

private theorem connect_known (sourceKnown : graph.contains source = true)
    (targetKnown : graph.contains target = true) :
    ∃ next, graph.connect source target = .ok next := by
  unfold connect
  rw [targetKnown, sourceKnown]
  by_cases present : (graph.successors source).contains target = true
  · exact ⟨graph, by rw [present]; rfl⟩
  · exact ⟨_, by rw [Bool.eq_false_iff.2 present]; rfl⟩

/-- A request is granted when the nodes that it names are there, and refused otherwise. -/
theorem edit_cases (graph : FlowGraph) (request : Request) :
    ((∀ name ∈ request.names, graph.contains name = true) ∧
      ∃ next answer, request.edit graph = .ok (next, answer)) ∨
    ∃ name ∈ request.names, ¬ graph.contains name = true ∧
      request.edit graph = .error (.unknownNode name) := by
  cases request with
  | addNode kind statement => exact .inl ⟨nofun, _, _, rfl⟩
  | appendExpression name expression =>
      by_cases known : graph.contains name = true
      · refine .inl ⟨List.forall_mem_singleton.2 known, ?_⟩
        simp only [Request.edit, appendExpression, if_pos known]
        exact ⟨_, _, rfl⟩
      · refine .inr ⟨name, List.mem_singleton_self name, known, ?_⟩
        simp only [Request.edit, appendExpression, if_neg known]
        rfl
  | connect source target =>
      by_cases targetKnown : graph.contains target = true
      case neg =>
        refine .inr ⟨target, List.mem_cons_self, targetKnown, ?_⟩
        simp only [Request.edit, connect, targetKnown]
        rfl
      by_cases sourceKnown : graph.contains source = true
      case neg =>
        refine .inr ⟨source, List.mem_cons_of_mem _ List.mem_cons_self, sourceKnown, ?_⟩
        simp only [Request.edit, connect, targetKnown, sourceKnown]
        rfl
      rcases connect_known sourceKnown targetKnown with ⟨next, done⟩
      refine .inl ⟨by simp [Request.names, targetKnown, sourceKnown], next, none, ?_⟩
      rw [Request.edit, done]
      rfl

theorem ok_of_map {outcome : Except Fault FlowGraph} {answer : Option NodeId}
    (done : outcome.map (·, none) = .ok (next, answer)) : outcome = .ok next := by
  cases outcome with
  | error fault => exact nomatch done
  | ok final =>
      cases done
      rfl

/-- A granted request is one of the operations that build graphs. -/
private theorem Built.edit {answer : Option NodeId} (built : graph.Built)
    (done : request.edit graph = .ok (next, answer)) : next.Built := by
  cases request with
  | addNode kind statement =>
      cases done
      exact built.addNode kind statement
  | appendExpression name expression => exact built.appendExpression (ok_of_map done)
  | connect source target => exact built.connect (ok_of_map done)

theorem mem_successors_connect {left right : NodeId}
    (done : graph.connect source target = .ok next) :
    right ∈ next.successors left ↔
      right ∈ graph.successors left ∨ source = left ∧ target = right := by
  by_cases present : target ∈ graph.successors source
  · rw [connect_present done present]
    refine (or_iff_left_of_imp ?_).symm
    rintro ⟨rfl, rfl⟩
    exact present
  · rw [(edges_connect done present).1]
    split
    · next same => simp [same, eq_comm]
    · next other => simp [other]

/-- The only edge that a granted request adds is the one that it is for. -/
theorem mem_successors_edit {answer : Option NodeId}
    (done : request.edit graph = .ok (next, answer)) :
    target ∈ next.successors source ↔
      target ∈ graph.successors source ∨ request = .connect source target := by
  cases request with
  | addNode kind statement =>
      cases done
      change target ∈ (graph.addNode kind statement).1.successors source ↔ _
      rw [(edges_addNode graph kind statement source).1]
      exact (or_iff_left nofun).symm
  | appendExpression name expression =>
      rw [(edges_appendExpression (ok_of_map done) source).1]
      exact (or_iff_left nofun).symm
  | connect left right => rw [mem_successors_connect (ok_of_map done), Request.connect.injEq]

/-! ## Graphs that requests build -/

/-- The graph after requests, from the empty one on. -/
def builtBy (requests : List Request) : FlowGraph := Attempts.run Request.perform requests {}

/-- The edge was requested when its nodes were there. -/
def Requested (requests : List Request) (source target : NodeId) : Prop :=
  ∃ before, before ++ [.connect source target] <+: requests ∧
    (builtBy before).contains source = true ∧ (builtBy before).contains target = true

variable {requests : List Request}

private theorem builtBy_granted {answer : Option NodeId}
    (done : request.edit (builtBy requests) = .ok (next, answer)) :
    builtBy (requests ++ [request]) = next := by
  rw [builtBy, Attempts.run_snoc, perform_eq_checked, ← builtBy, Attempts.run_checked_of_ok done]
  rfl

private theorem builtBy_refused {fault : Fault}
    (refused : request.edit (builtBy requests) = .error fault) :
    builtBy (requests ++ [request]) = builtBy requests := by
  rw [builtBy, Attempts.run_snoc, perform_eq_checked, ← builtBy,
    Attempts.run_checked_of_error refused]
  rfl

private theorem built_builtBy (requests : List Request) : (builtBy requests).Built := by
  refine Attempts.run_keeps (fun request current built => ?_) requests Built.empty
  rw [perform_eq_checked]
  exact Attempts.checked_keeps (fun _ _ done => built.edit done) built

private theorem requested_snoc : Requested (requests ++ [request]) source target ↔
    Requested requests source target ∨ request = .connect source target ∧
      (builtBy requests).contains source = true ∧ (builtBy requests).contains target = true := by
  constructor
  · rintro ⟨before, first, known⟩
    rcases List.prefix_concat_iff.1 first with whole | earlier
    · rcases List.append_inj' whole rfl with ⟨rfl, last⟩
      exact .inr ⟨(List.cons.inj last).1.symm, known⟩
    · exact .inl ⟨before, earlier, known⟩
  · rintro (⟨before, first, known⟩ | ⟨rfl, known⟩)
    · exact ⟨before, first.trans (List.prefix_append _ _), known⟩
    · exact ⟨requests, List.prefix_rfl, known⟩

/-- The edges of the graph are those that were requested. -/
theorem mem_successors_builtBy (requests : List Request) (source target : NodeId) :
    target ∈ (builtBy requests).successors source ↔ Requested requests source target := by
  induction requests using List.reverseRecOn with
  | nil =>
      refine iff_of_false nofun ?_
      rintro ⟨before, first, -⟩
      exact absurd first (by simp)
  | append_singleton requests request induction =>
      rw [requested_snoc, ← induction]
      rcases edit_cases (builtBy requests) request with
        ⟨known, next, answer, done⟩ | ⟨name, named, unknown, refused⟩
      · rw [builtBy_granted done, mem_successors_edit done]
        refine or_congr_right (and_iff_left_of_imp ?_).symm
        rintro rfl
        exact ⟨known source (by simp [Request.names]), known target (by simp [Request.names])⟩
      · rw [builtBy_refused refused]
        refine (or_iff_left ?_).symm
        rintro ⟨rfl, sourceKnown, targetKnown⟩
        simp only [Request.names, List.mem_cons, List.not_mem_nil, or_false] at named
        rcases named with rfl | rfl
        · exact unknown targetKnown
        · exact unknown sourceKnown

private theorem perform_granted_iff (graph : FlowGraph) (request : Request) :
    (∃ answer next, request.perform.run graph = .ok answer next) ↔
      ∀ name ∈ request.names, graph.contains name = true := by
  rw [perform_eq_checked]
  rcases edit_cases graph request with
    ⟨known, next, answer, done⟩ | ⟨name, named, unknown, refused⟩
  · exact iff_of_true ⟨answer, next, Attempts.run_checked_of_ok done⟩ known
  · rw [Attempts.run_checked_of_error refused]
    exact iff_of_false nofun fun known => unknown (known name named)

/-- A request that fails has edited nothing. -/
private theorem eq_of_perform_error {fault : Fault}
    (failed : request.perform.run graph = .error fault next) :
    fault.kind = .malformed ∧ next = graph := by
  rw [perform_eq_checked] at failed
  rcases edit_cases graph request with ⟨-, _, _, done⟩ | ⟨name, -, -, refused⟩
  · rw [Attempts.run_checked_of_ok done] at failed
    exact nomatch failed
  · rw [Attempts.run_checked_of_error refused] at failed
    cases failed
    exact ⟨rfl, rfl⟩

/-- Whatever was requested, every edge is stored at both of its ends, once at each, and both are
nodes; the edges are those that were requested. The next request is carried out in place as the
checked edit is: it is granted if it names nodes only, and when it fails it leaves the graph. -/
theorem edges_builtBy (requests : List Request) :
    let graph := builtBy requests
    (∀ source target, target ∈ graph.successors source ↔ source ∈ graph.predecessors target) ∧
    (∀ node, (graph.successors node).Nodup ∧ (graph.predecessors node).Nodup) ∧
    (∀ node, ∀ other ∈ graph.successors node ++ graph.predecessors node,
      graph.contains other = true) ∧
    (∀ source target, target ∈ graph.successors source ↔ Requested requests source target) ∧
    (∀ request : Request, request.perform = Attempts.checked fun graph => request.edit graph) ∧
    (∀ request : Request, (∃ answer next, request.perform.run graph = .ok answer next) ↔
      ∀ name ∈ request.names, graph.contains name = true) ∧
    ∀ (request : Request) (fault : Fault) (final : FlowGraph),
      request.perform.run graph = .error fault final → fault.kind = .malformed ∧ final = graph := by
  intro graph
  have built : graph.Built := built_builtBy requests
  refine ⟨built.linked, fun node => (built.distinct node).symm, fun node other listed => ?_,
    mem_successors_builtBy requests, perform_eq_checked, perform_granted_iff graph,
    fun _ _ _ => eq_of_perform_error⟩
  rcases List.mem_append.1 listed with after | before
  · exact decide_eq_true (lt_size_of_entered ((built.linked node other).1 after))
  · exact decide_eq_true (built.lt_size_of_predecessor before)

/-- An edge is requested before its target is there, then twice, then to an unknown node; another
one leads from a node to itself. -/
def straying : List Request :=
  [.addNode .direct 0, .connect 0 1, .addNode .condition 0, .connect 0 1, .connect 0 1,
    .connect 0 7, .appendExpression 7 0, .connect 1 1, .appendExpression 1 4]

theorem edges_builtBy_straying :
    let graph := builtBy straying
    (1 ∈ graph.successors 0 ∧ 0 ∈ graph.predecessors 1 ∧ graph.contains 1 = true) ∧
      (graph.successors 0 = [1] ∧ graph.predecessors 1 = [0, 1]) ∧
      ∃ fault final, (Request.connect 1 2).perform.run graph = .error fault final ∧
        fault = .unknownNode 2 ∧ fault.kind = .malformed ∧ final = graph := by
  intro graph
  obtain ⟨linked, -, inside, -, -, -, failing⟩ := edges_builtBy straying
  have edge : 1 ∈ graph.successors 0 := by decide
  have failed : (Request.connect 1 2).perform.run graph = .error (.unknownNode 2) graph := rfl
  exact ⟨⟨edge, (linked 0 1).1 edge, inside 0 1 (List.mem_append_left _ edge)⟩,
    by decide, _, _, failed, rfl, failing _ _ _ failed⟩

end FlowGraph

end SlotVersioning
