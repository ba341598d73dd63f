import SlotVersioning.Proofs.Checked.Graph
import SlotVersioning.Proofs.Run.Maintaining

/-!
# Checked runs

A checked run is one that may also be refused, at an index out of range or at facts that are split.
It follows an action when from every state whose graph is in range it is not refused, ends like the
action, and leaves such a state, also where the action fails. Following is closed under blocks and
loops (`Follows.bind`, `Follows.forM`, `Follows.foldlM`).
-/

namespace SlotVersioning

/-- The graph is in range and has as many nodes at least. -/
def Tables.InRange (bound : Nat) (tables : Tables) : Prop :=
  ∀ graph, tables.graph = some graph → graph.InRange ∧ bound ≤ graph.size

def RunState.InRange (bound : Nat) (state : RunState) : Prop := state.tables.InRange bound

/-- Actions that may fail, and that may be refused, after which there is no state. -/
abbrev CheckedM := ExceptT Fault (StateT RunState Option)

namespace CheckedM

variable {α β : Type}

/-- An action that needs no check. -/
def perform (action : RunM α) : CheckedM α := fun state =>
  match action state with
  | .ok value final => some (.ok value, final)
  | .error fault final => some (.error fault, final)

instance : MonadLift RunM CheckedM := ⟨perform⟩

private theorem bind_ok {checked : CheckedM α} {next : α → CheckedM β} {state middle : RunState}
    {value : α} (first : checked state = some (.ok value, middle)) :
    (checked >>= next) state = next value middle := by
  change (checked state).bind _ = _
  rw [first]
  rfl

private theorem bind_error {checked : CheckedM α} {next : α → CheckedM β} {state middle : RunState}
    {fault : Fault} (first : checked state = some (.error fault, middle)) :
    (checked >>= next) state = some (.error fault, middle) := by
  change (checked state).bind _ = _
  rw [first]
  rfl

end CheckedM

open CheckedM

variable {α β : Type} {bound : Nat} {checked : CheckedM α} {action : RunM α}

/-- From any state in range the checked run is that of the action, and it ends in range. -/
def Follows (bound : Nat) (checked : CheckedM α) (action : RunM α) : Prop :=
  ∀ state, state.InRange bound →
    checked state = perform action state ∧ (action.stateAfter state).InRange bound

namespace Follows

/-! ## Blocks -/

theorem perform (maintains : action.Maintains (RunState.InRange bound)) :
    Follows bound (perform action) action :=
  fun state holds => ⟨rfl, maintains state holds⟩

theorem pure (value : α) : Follows bound (pure value) (pure value) := fun _ holds => ⟨rfl, holds⟩

theorem throw (fault : Fault) : Follows bound (throw fault : CheckedM α) (throw fault) :=
  fun _ holds => ⟨rfl, holds⟩

theorem bind {checkedNext : α → CheckedM β} {next : α → RunM β}
    (first : Follows bound checked action)
    (second : ∀ value, Follows bound (checkedNext value) (next value)) :
    Follows bound (checked >>= checkedNext) (action >>= next) := by
  intro state holds
  rcases first state holds with ⟨same, between⟩
  unfold CheckedM.perform RunM.stateAfter at *
  cases begun : action state with
  | ok value middle =>
      rw [begun] at same between
      rw [RunM.bind_eq begun, bind_ok same]
      exact second value middle between
  | error fault middle =>
      rw [begun] at same between
      rw [RunM.bind_error begun, bind_error same]
      exact ⟨rfl, between⟩

/-- What a check lets pass is used further on. -/
theorem known {value : β} {found : Option β} (passed : found = some value)
    {checkedNext : β → CheckedM α} (rest : Follows bound (checkedNext value) action) :
    Follows bound (liftM found >>= checkedNext) action := by
  rw [passed]
  exact rest

theorem forM {list : List α} {checked : α → CheckedM Unit} {action : α → RunM Unit}
    (each : ∀ value ∈ list, Follows bound (checked value) (action value)) :
    Follows bound (list.forM checked) (list.forM action) := by
  induction list with
  | nil => exact pure ()
  | cons head tail induction =>
      exact (each head List.mem_cons_self).bind fun _ =>
        induction fun value member => each value (List.mem_cons_of_mem _ member)

theorem foldlM {list : List α} {checked : β → α → CheckedM β} {action : β → α → RunM β}
    (each : ∀ start, ∀ value ∈ list, Follows bound (checked start value) (action start value))
    (start : β) : Follows bound (list.foldlM checked start) (list.foldlM action start) := by
  induction list generalizing start with
  | nil => exact pure start
  | cons head tail induction =>
      rw [List.foldlM_cons, List.foldlM_cons]
      exact (each start head List.mem_cons_self).bind fun next =>
        induction (fun start value member => each start value (List.mem_cons_of_mem _ member)) next

/-- What is read of the tables is in range. -/
theorem tables {checkedNext : Tables → CheckedM α} {next : Tables → RunM α}
    (rest : ∀ before : Tables, before.InRange bound →
      Follows bound (checkedNext before) (next before)) :
    Follows bound (liftM RunM.tables >>= checkedNext) (RunM.tables >>= next) :=
  fun state holds => rest state.tables holds state holds

/-- A new graph may have more nodes, and what follows may rely on them. -/
theorem setGraph {graph : VersionGraph} (inRange : graph.InRange) (grown : bound ≤ graph.size)
    {checkedNext : Unit → CheckedM α} {next : Unit → RunM α}
    (rest : Follows graph.size (checkedNext ()) (next ())) :
    Follows bound
      (liftM (RunM.editTables fun tables => { tables with graph := some graph }) >>= checkedNext)
      (RunM.editTables (fun tables => { tables with graph := some graph }) >>= next) := by
  intro state _
  have placed : RunState.InRange graph.size
      { state with tables := { state.tables with graph := some graph } } := by
    intro other found
    cases found
    exact ⟨inRange, Nat.le_refl _⟩
  rcases rest _ placed with ⟨same, final⟩
  refine ⟨same, fun other found => ?_⟩
  exact (final other found).imp_right fun more => Nat.le_trans grown more

end Follows

/-! ## Edits of the graph -/

/-- On graphs in range with enough nodes a checked edit is not refused; it keeps them in range and
takes no nodes away. -/
def Permitted (bound : Nat) (checked : VersionGraph → Option VersionGraph)
    (edit : VersionGraph → VersionGraph) : Prop :=
  ∀ graph, graph.InRange → bound ≤ graph.size →
    checked graph = some (edit graph) ∧ (edit graph).InRange ∧ graph.size ≤ (edit graph).size

namespace CheckedM

def editGraph (edit : VersionGraph → Option VersionGraph) : CheckedM Unit := do
  match (← RunM.tables).graph with
  | none => pure ()
  | some graph =>
      let edited ← edit graph
      RunM.editTables fun tables => { tables with graph := some edited }

end CheckedM

/-- Without a graph there is nothing to edit. -/
private theorem RunM.editGraph_eq (edit : VersionGraph → VersionGraph) : RunM.editGraph edit = (do
    match (← RunM.tables).graph with
    | none => pure ()
    | some graph => RunM.editTables fun tables => { tables with graph := some (edit graph) }) := by
  funext state
  change EStateM.Result.ok () { state with
    tables := { state.tables with graph := state.tables.graph.map edit } } = _
  rw [RunM.bind_eq (RunM.tables_apply state)]
  cases found : state.tables.graph with
  | none => exact congrArg (fun graph => EStateM.Result.ok () { state with
      tables := { state.tables with graph } }) found.symm
  | some graph => rfl

theorem Follows.editGraph {checked : VersionGraph → Option VersionGraph}
    {edit : VersionGraph → VersionGraph} (permitted : Permitted bound checked edit) :
    Follows bound (CheckedM.editGraph checked) (RunM.editGraph edit) := by
  rw [RunM.editGraph_eq]
  refine .tables fun before holds => ?_
  cases found : before.graph with
  | none => exact .pure ()
  | some graph =>
      rcases holds graph found with ⟨inRange, enough⟩
      rcases permitted graph inRange enough with ⟨passed, kept, grown⟩
      exact .known passed (.setGraph kept (Nat.le_trans enough grown) (.pure ()))

/-! ## Actions that leave the graph alone -/

namespace RunM.Maintains

theorem editTables_inRange {edit : Tables → Tables}
    (same : ∀ tables : Tables, (edit tables).graph = tables.graph) :
    Maintains (RunState.InRange bound) (RunM.editTables edit) :=
  fun state holds graph found => holds graph (same state.tables ▸ found)

theorem report_inRange (event : Event) :
    Maintains (RunState.InRange bound) (RunM.report event) := fun _ holds => holds

theorem writeVersion_inRange (expression : ExprId) (version : Version) :
    Maintains (RunState.InRange bound) (RunM.writeVersion expression version) :=
  fun _ holds => holds

theorem mint_inRange (tree : StatementTree) (slot : Slot) (statement : Option StatementId) :
    Maintains (RunState.InRange bound) (RunM.mint tree slot statement) := fun _ holds => holds

end RunM.Maintains

end SlotVersioning
