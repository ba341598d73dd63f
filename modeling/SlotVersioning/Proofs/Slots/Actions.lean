import SlotVersioning.Proofs.Slots.Views

/-!
# Actions seen through a view

Two runs that do the same to a slot stay in agreement about it, and what a run does to other slots
does not show. In both cases the actions succeed, for nothing that they need is missing. So
statements about actions say that they end, and how (`Reaches`, `Meets`).
-/

namespace SlotVersioning

open VersionGraph

namespace RunM

variable {α β γ δ : Type}

/-! ## Ending -/

/-- The action succeeds, and ends like this. -/
def Reaches (action : RunM α) (state : RunState) (ends : α → RunState → Prop) : Prop :=
  ∃ value final, action state = .ok value final ∧ ends value final

namespace Reaches

variable {action : RunM α} {next : α → RunM β} {state middle : RunState} {value : α}
  {between : α → RunState → Prop} {ends : β → RunState → Prop}

theorem pure {ends : α → RunState → Prop} (holds : ends value state) :
    Reaches (pure value) state ends :=
  ⟨value, state, rfl, holds⟩

theorem bind (first : Reaches action state between)
    (rest : ∀ value middle, between value middle → Reaches (next value) middle ends) :
    Reaches (action >>= next) state ends := by
  rcases first with ⟨value, middle, begun, holds⟩
  rcases rest value middle holds with ⟨result, final, ended, so⟩
  exact ⟨result, final, (bind_eq begun).trans ended, so⟩

theorem step (first : action state = .ok value middle) (rest : Reaches (next value) middle ends) :
    Reaches (action >>= next) state ends := by
  rcases rest with ⟨result, final, ended, so⟩
  exact ⟨result, final, (bind_eq first).trans ended, so⟩

theorem imp {ends weaker : α → RunState → Prop} (reaches : Reaches action state ends)
    (implies : ∀ value final, ends value final → weaker value final) :
    Reaches action state weaker := by
  rcases reaches with ⟨value, final, ended, so⟩
  exact ⟨value, final, ended, implies value final so⟩

theorem foldlM {holds : RunState → Prop} (list : List α) {step : β → α → RunM β}
    (each : ∀ entry ∈ list, ∀ value state, holds state →
      Reaches (step value entry) state fun _ final => holds final) (start : β)
    (begun : holds state) : Reaches (list.foldlM step start) state fun _ final => holds final := by
  induction list generalizing start state with
  | nil => exact pure begun
  | cons head tail induction =>
      rw [List.forall_mem_cons] at each
      rw [List.foldlM_cons]
      exact (each.1 start state begun).bind fun next _ => induction each.2 next

theorem forM {holds : RunState → Prop} (list : List α) {action : α → RunM Unit}
    (each : ∀ value ∈ list, ∀ state, holds state →
      Reaches (action value) state fun _ final => holds final) (begun : holds state) :
    Reaches (list.forM action) state fun _ final => holds final := by
  induction list generalizing state with
  | nil => exact pure begun
  | cons head tail induction =>
      rw [List.forall_mem_cons] at each
      exact (each.1 state begun).bind fun _ _ => induction each.2

theorem of_run {ends : α → RunState → Prop} (reaches : Reaches action state ends)
    (run : action state = .ok value middle) : ends value middle := by
  rcases reaches with ⟨_, _, ended, so⟩
  rw [run] at ended
  cases ended
  exact so

end Reaches

/-- Both actions succeed, and together they end like this. -/
def Meets (left : RunM α) (right : RunM β) (first second : RunState)
    (ends : α → β → RunState → RunState → Prop) : Prop :=
  Reaches left first fun value final => Reaches right second fun other otherFinal =>
    ends value other final otherFinal

namespace Meets

variable {left : RunM α} {right : RunM β} {next : α → RunM γ} {otherNext : β → RunM δ}
  {first second : RunState} {ends : γ → δ → RunState → RunState → Prop}

theorem pure {value : α} {other : β} {ends : α → β → RunState → RunState → Prop}
    (holds : ends value other first second) :
    Meets (pure value) (pure other) first second ends :=
  Reaches.pure (Reaches.pure holds)

theorem bind {between : α → β → RunState → RunState → Prop}
    (begun : Meets left right first second between)
    (rest : ∀ value other middle otherMiddle, between value other middle otherMiddle →
      Meets (next value) (otherNext other) middle otherMiddle ends) :
    Meets (left >>= next) (right >>= otherNext) first second ends := by
  rcases begun with ⟨value, middle, leftRun, other, otherMiddle, rightRun, holds⟩
  rcases rest value other middle otherMiddle holds with
    ⟨result, final, leftRest, otherResult, otherFinal, rightRest, so⟩
  exact ⟨result, final, (bind_eq leftRun).trans leftRest, otherResult, otherFinal,
    (bind_eq rightRun).trans rightRest, so⟩

theorem step {value : α} {other : β} {middle otherMiddle : RunState}
    (leftRun : left first = .ok value middle) (rightRun : right second = .ok other otherMiddle)
    (rest : Meets (next value) (otherNext other) middle otherMiddle ends) :
    Meets (left >>= next) (right >>= otherNext) first second ends := by
  rcases rest with ⟨result, final, leftRest, otherResult, otherFinal, rightRest, so⟩
  exact ⟨result, final, (bind_eq leftRun).trans leftRest, otherResult, otherFinal,
    (bind_eq rightRun).trans rightRest, so⟩

theorem imp {ends weaker : α → β → RunState → RunState → Prop}
    (meets : Meets left right first second ends)
    (implies : ∀ value other final otherFinal, ends value other final otherFinal →
      weaker value other final otherFinal) : Meets left right first second weaker :=
  Reaches.imp meets fun value final reaches => reaches.imp fun other otherFinal =>
    implies value other final otherFinal

theorem forM {α : Type} {related : RunState → RunState → Prop} (list : List α)
    {action other : α → RunM Unit}
    (each : ∀ value first second, related first second →
      Meets (action value) (other value) first second fun _ _ => related)
    (begun : related first second) :
    Meets (list.forM action) (list.forM other) first second fun _ _ => related := by
  induction list generalizing first second with
  | nil => exact pure begun
  | cons head tail induction =>
      exact (each head first second begun).bind fun _ _ _ _ => induction

theorem of_runs {ends : α → β → RunState → RunState → Prop} {value : α} {other : β}
    {final otherFinal : RunState} (meets : Meets left right first second ends)
    (leftRun : left first = .ok value final) (rightRun : right second = .ok other otherFinal) :
    ends value other final otherFinal :=
  (Reaches.of_run meets leftRun).of_run rightRun

end Meets

variable {view : SlotView} {left right start state : RunState} {site other : Site}
  {key : VersionKey}

/-! ## Live facts -/

theorem recordLive_unseen (agrees : view.Agrees start state) (facts : Facts) :
    Reaches (recordLive site key facts) state fun _ final => view.Agrees start final := by
  rcases recordLive_idle site key facts state with ⟨final, recorded, idle⟩
  exact ⟨(), final, recorded, agrees.idle idle⟩

theorem recordLive_meets (agrees : view.Agrees left right) (otherKey : VersionKey)
    (facts others : Facts) :
    Meets (recordLive site key facts) (recordLive other otherKey others) left right
      fun _ _ final otherFinal => view.Agrees final otherFinal :=
  (recordLive_unseen agrees.symm facts).imp fun _ _ seen => recordLive_unseen seen.symm others

/-! ## Merges -/

/-- The version graph has the node of the key at the position. -/
def Places (key : VersionKey) (position : Nat) (state : RunState) : Prop :=
  ∃ graph, state.tables.graph = some graph ∧ graph.position? key = some position

theorem Places.placed {position : Nat} (places : Places key position state) {graph : VersionGraph}
    (stored : state.tables.graph = some graph) : graph.position? key = some position := by
  rcases places with ⟨_, same, placed⟩
  rw [same] at stored
  cases stored
  exact placed

theorem Places.edited {position : Nat} (places : Places key position state)
    {edit : VersionGraph → VersionGraph}
    (keeps : ∀ graph : VersionGraph, graph.position? key = some position →
      (edit graph).position? key = some position)
    {next : RunState} (edited : next.tables.graph = state.tables.graph.map edit) :
    Places key position next := by
  rcases places with ⟨graph, stored, placed⟩
  exact ⟨edit graph, edited.trans (congrArg (Option.map edit) stored), keeps graph placed⟩

theorem position?_addInput {graph : VersionGraph} {position : Nat}
    (known : graph.position? key = some position) (source input : VersionKey) (target : Nat) :
    (graph.addInput source input target).position? key = some position :=
  (position?_link ..).trans (position?_chained source input .phiInput known)

section

variable {way otherWay : Nat}

private theorem addPhiInput_meets (here : key.slot = view.slot) (source : Version)
    (begun : view.Agrees left right ∧ Places key way left ∧ Places key otherWay right) :
    Meets (addPhiInput site key way source) (addPhiInput other key otherWay source) left right
      fun _ _ final otherFinal => view.Agrees final otherFinal ∧ Places key way final ∧
        Places key otherWay otherFinal := by
  rcases begun with ⟨agrees, places, otherPlaces⟩
  have minted := agrees.minted site.tree other.tree (some site.statement) (some other.statement)
  unfold addPhiInput
  refine .step (mint_apply _ _ _ _) (mint_apply _ _ _ _) ?_
  rw [here, agrees.last_eq]
  refine .step (editGraph_apply _ _) (editGraph_apply _ _) ?_
  refine ⟨_, _, report_apply _ _, _, _, report_apply _ _, ?_, ?_, ?_⟩
  · refine SlotView.Agrees.reported (SlotView.Agrees.edited minted ?_) _ _
    intro graph otherGraph stored otherStored graphs
    have both : AgreesAt.Both graph otherGraph key way otherWay :=
      ⟨places.placed stored, otherPlaces.placed otherStored⟩
    have added := (graphs.addInput here both source (right.last view.slot + 1)).1
    rw [here] at added
    exact added
  · exact places.edited (fun _ known => position?_addInput known _ _ _) rfl
  · exact otherPlaces.edited (fun _ known => position?_addInput known _ _ _) rfl

private theorem addPhiInput_unseen (elsewhere : key.slot ≠ view.slot) (source : Version)
    (begun : view.Agrees start state ∧ Places key way state) :
    Reaches (addPhiInput site key way source) state fun _ final =>
      view.Agrees start final ∧ Places key way final := by
  rcases begun with ⟨agrees, places⟩
  have minted := agrees.minted_elsewhere elsewhere site.tree (some site.statement)
  unfold addPhiInput
  refine .step (mint_apply _ _ _ _) (.step (editGraph_apply _ _) ?_)
  refine ⟨_, _, report_apply _ _, ?_, ?_⟩
  · refine SlotView.Agrees.reported_elsewhere (SlotView.Agrees.edited_elsewhere minted ?_) _
    intro graph stored sound
    exact (AgreesAt.addInput_elsewhere sound elsewhere (places.placed stored) source _).1
  · exact places.edited (fun _ known => position?_addInput known _ _ _) rfl

end

/-- The same versions are merged. -/
theorem mergeInto_meets (here : key.slot = view.slot) (agrees : view.Agrees left right)
    (on : left.tables.graph.isSome) (sources : VersionSet) :
    Meets (mergeInto site key sources) (mergeInto other key sources) left right
      fun _ _ final otherFinal => view.Agrees final otherFinal := by
  rcases Option.isSome_iff_exists.1 on with ⟨graph, stored⟩
  rcases agrees.graphs stored with ⟨otherGraph, otherStored, graphs⟩
  have phantom : left.tables.phantom? key = right.tables.phantom? key := by
    have same := agrees.phantom key.version
    rw [← here] at same
    exact same
  have pruned := (graphs.ensure key .use here none none).prune here
    ⟨position?_ensure graph key .use none, position?_ensure otherGraph key .use none⟩
  unfold mergeInto
  refine .step (tables_apply _) (tables_apply _) ?_
  simp only [stored, otherStored, phantom]
  refine .step (editTables_apply _ _) (editTables_apply _ _) ?_
  rw [(pruned _).2.1]
  refine Meets.imp (Meets.forM _ (fun source _ _ => addPhiInput_meets here source) ⟨?_, ?_, ?_⟩)
    fun _ _ _ _ ends => ends.1
  · exact agrees.drawn (pruned _).1
  · exact ⟨_, rfl, (pruned _).2.2.1⟩
  · exact ⟨_, rfl, (pruned _).2.2.2⟩

theorem mergeInto_unseen (elsewhere : key.slot ≠ view.slot) (agrees : view.Agrees start state)
    (on : state.tables.graph.isSome) (sources : VersionSet) :
    Reaches (mergeInto site key sources) state fun _ final => view.Agrees start final := by
  rcases Option.isSome_iff_exists.1 on with ⟨graph, stored⟩
  rcases agrees.symm.graphs stored with ⟨_, -, graphs⟩
  have ensured := AgreesAt.ensure_elsewhere graphs.leftSound key .use none elsewhere
  have pruned := AgreesAt.prune_elsewhere ensured.rightSound elsewhere
    (position?_ensure graph key .use none)
  have each (source : Version) (reached : RunState) :=
    @addPhiInput_unseen view start reached site key (graph.ensure key .use).2 elsewhere source
  unfold mergeInto
  refine .step (tables_apply _) ?_
  simp only [stored]
  refine .step (editTables_apply _ _) ?_
  refine (Reaches.forM _ (fun source _ => each source) ⟨?_, ?_⟩).imp fun _ _ ends => ends.1
  · exact agrees.drawn_elsewhere stored (ensured.trans (pruned _).1)
  · exact ⟨_, rfl, (pruned _).2⟩

/-! ## Phantoms -/

private theorem addPhantom_meets (here : key.slot = view.slot) (agrees : view.Agrees left right)
    (on : left.tables.graph.isSome) :
    Meets (addPhantom site key) (addPhantom other key) left right
      fun phantom otherPhantom final otherFinal =>
        phantom = otherPhantom ∧ view.Agrees final otherFinal := by
  rcases Option.isSome_iff_exists.1 on with ⟨graph, stored⟩
  rcases agrees.graphs stored with ⟨otherGraph, otherStored, graphs⟩
  have minted := agrees.minted site.tree other.tree none none
  have grown (version : Version) :=
    (graphs.ensure ⟨view.slot, version⟩ .phantom rfl none none).ensure key .use here none none
  have sources (version : Version) := (grown version).sourcesAt here
    ⟨position?_ensure _ key .use none, position?_ensure _ key .use none⟩
  unfold addPhantom
  refine .step (mint_apply _ _ _ _) (mint_apply _ _ _ _) ?_
  rw [here, agrees.last_eq]
  refine .step (tables_apply _) (tables_apply _) ?_
  have afterwards : (left.tables.mint site.tree view.slot none).1.graph = some graph := stored
  have otherAfterwards : (right.tables.mint other.tree view.slot none).1.graph = some otherGraph :=
    otherStored
  simp only [afterwards, otherAfterwards]
  refine .step (editTables_apply _ _) (editTables_apply _ _) ?_
  refine .step (report_apply _ _) (report_apply _ _) ?_
  dsimp only
  rw [sources]
  refine .bind (mergeInto_meets here ((minted.drawn (grown _)).reported _ _) rfl _) ?_
  exact fun _ _ _ _ ends => .pure ⟨rfl, ends⟩

private theorem addPhantom_unseen (elsewhere : key.slot ≠ view.slot)
    (agrees : view.Agrees start state) (on : state.tables.graph.isSome) :
    Reaches (addPhantom site key) state fun _ final => view.Agrees start final := by
  rcases Option.isSome_iff_exists.1 on with ⟨graph, stored⟩
  rcases agrees.symm.graphs stored with ⟨_, -, graphs⟩
  have minted := agrees.minted_elsewhere elsewhere site.tree none
  have begun (version : Version) : graph.AgreesAt view.slot
      (graph.ensure ⟨key.slot, version⟩ .phantom).1 :=
    AgreesAt.ensure_elsewhere graphs.leftSound _ .phantom none elsewhere
  have grown (version : Version) := (begun version).trans
    (AgreesAt.ensure_elsewhere (begun version).rightSound key .use none elsewhere)
  unfold addPhantom
  refine .step (mint_apply _ _ _ _) (.step (tables_apply _) ?_)
  have afterwards : (state.tables.mint site.tree key.slot none).1.graph = some graph := stored
  simp only [afterwards]
  refine .step (editTables_apply _ _) (.step (report_apply _ _) ?_)
  have drawn := minted.drawn_elsewhere afterwards (grown (state.last key.slot + 1))
  refine .bind (mergeInto_unseen elsewhere (drawn.reported_elsewhere _) rfl _) ?_
  exact fun _ _ ends => .pure ends

theorem ensurePhantom_meets (here : key.slot = view.slot) (agrees : view.Agrees left right)
    (on : left.tables.graph.isSome) :
    Meets (ensurePhantom site key) (ensurePhantom other key) left right
      fun _ _ final otherFinal => view.Agrees final otherFinal := by
  have phantom : left.tables.phantom? key = right.tables.phantom? key := by
    have same := agrees.phantom key.version
    rw [← here] at same
    exact same
  unfold ensurePhantom
  refine .step (tables_apply _) (tables_apply _) ?_
  rw [phantom]
  split
  · refine .bind (addPhantom_meets here agrees on) ?_
    rintro added _ final otherFinal ⟨rfl, ends⟩
    exact ⟨_, _, editTables_apply _ _, _, _, editTables_apply _ _, ends.withPhantom key added⟩
  · exact .pure agrees

theorem ensurePhantom_unseen (elsewhere : key.slot ≠ view.slot) (agrees : view.Agrees start state)
    (on : state.tables.graph.isSome) :
    Reaches (ensurePhantom site key) state fun _ final => view.Agrees start final := by
  unfold ensurePhantom
  refine .step (tables_apply _) ?_
  split
  · refine .bind (addPhantom_unseen elsewhere agrees on) ?_
    intro added final ends
    exact ⟨_, _, editTables_apply _ _, ends.withPhantom_elsewhere elsewhere added⟩
  · exact .pure agrees

end RunM

end SlotVersioning
