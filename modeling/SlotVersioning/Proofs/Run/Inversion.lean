import SlotVersioning.Versioning.Versioner

/-!
# Inverting runs

A successful run of a block is a sequence of successful runs of its steps (`RunM.bind_ok`). The
elementary actions always succeed, and their results are given as equations.
-/

namespace SlotVersioning

/-- The version written at an expression, zero when there is none. -/
def RunState.version (state : RunState) (expression : ExprId) : Nat :=
  state.versions.getD expression 0

/-- The last version that was numbered for a slot. -/
def RunState.last (state : RunState) (slot : Slot) : Nat :=
  state.tables.lastVersions.getD slot 0

namespace RunM

variable {α β : Type}

/-! ## Blocks -/

theorem bind_ok {action : RunM α} {next : α → RunM β} {state final : RunState} {value : β}
    (run : (action >>= next) state = .ok value final) :
    ∃ result middle, action state = .ok result middle ∧ next result middle = .ok value final := by
  change EStateM.bind action next state = _ at run
  unfold EStateM.bind at run
  cases first : action state with
  | ok result middle =>
      rw [first] at run
      exact ⟨result, middle, rfl, run⟩
  | error fault middle =>
      rw [first] at run
      exact nomatch run

theorem bind_eq {action : RunM α} {next : α → RunM β} {state middle : RunState} {result : α}
    (first : action state = .ok result middle) :
    (action >>= next) state = next result middle := by
  change EStateM.bind action next state = _
  unfold EStateM.bind
  rw [first]

theorem bind_error {action : RunM α} {next : α → RunM β} {state middle : RunState} {fault : Fault}
    (first : action state = .error fault middle) :
    (action >>= next) state = .error fault middle := by
  change EStateM.bind action next state = _
  unfold EStateM.bind
  rw [first]

@[simp] theorem pure_apply (value : α) (state : RunState) :
    (pure value : RunM α) state = .ok value state := rfl

theorem pure_ok {value result : α} {state final : RunState}
    (run : (pure value : RunM α) state = .ok result final) : result = value ∧ final = state := by
  rw [pure_apply] at run
  cases run
  exact ⟨rfl, rfl⟩

/-! ## Elementary actions -/

@[simp] theorem tables_apply (state : RunState) : tables state = .ok state.tables state := rfl

@[simp] theorem editTables_apply (edit : Tables → Tables) (state : RunState) :
    editTables edit state = .ok () { state with tables := edit state.tables } := rfl

@[simp] theorem editGraph_apply (edit : VersionGraph → VersionGraph) (state : RunState) :
    editGraph edit state = .ok () { state with tables := state.tables.editGraph edit } := rfl

@[simp] theorem report_apply (event : Event) (state : RunState) :
    report event state = .ok () { state with events := event :: state.events } := rfl

@[simp] theorem versionOf_apply (expression : ExprId) (state : RunState) :
    versionOf expression state = .ok (state.version expression) state := rfl

@[simp] theorem mint_apply (tree : StatementTree) (slot : Slot)
    (statement : Option StatementId) (state : RunState) :
    mint tree slot statement state =
      .ok (state.last slot + 1)
        { state with tables := (state.tables.mint tree slot statement).1 } := rfl

@[simp] theorem slotOfField_apply (expression : ExprId) (state : RunState) :
    slotOfField expression state =
      .ok (state.tables.slotOfField expression).2
        { state with tables := (state.tables.slotOfField expression).1 } := rfl

/-- A field access has a slot already, or else it gets the next one and a node for it. -/
theorem slotOfField_cases {expression : ExprId} {slot : Slot} {state final : RunState}
    (run : slotOfField expression state = .ok slot final) :
    (state.tables.fields.bind (fun fields => fields[expression]?)) = some slot ∧ final = state ∨
    (state.tables.fields.bind (fun fields => fields[expression]?)) = none ∧
      slot = state.tables.nextFieldSlot ∧
      final = { state with tables := { state.tables with
        nextFieldSlot := slot - 1
        fields := state.tables.fields.map fun fields => fields.insert expression slot
        graph := state.tables.graph.map fun graph => (graph.ensure ⟨slot, 1⟩ .field).1 } } := by
  rw [slotOfField_apply] at run
  cases run
  unfold Tables.slotOfField
  split
  · next found => exact .inl ⟨found, rfl⟩
  · next unknown => exact .inr ⟨unknown, rfl, rfl⟩

theorem recordLive_ok {site : Site} {key : VersionKey} {facts : Facts} {state final : RunState}
    (run : recordLive site key facts state = .ok () final) :
    final = state ∨
      final = { state with tables := state.tables.editGraph (·.withLive key facts) } := by
  unfold recordLive at run
  split at run
  · cases run
    exact .inr rfl
  · cases run
    exact .inl rfl

/-- A version that has no phantom yet gets one, which is recorded for it. -/
theorem ensurePhantom_parts {site : Site} {key : VersionKey} {state final : RunState}
    (run : ensurePhantom site key state = .ok () final) :
    (state.tables.phantom? key).isSome ∧ final = state ∨
    state.tables.phantom? key = none ∧
      ∃ phantom middle, addPhantom site key state = .ok phantom middle ∧
        final = { middle with tables := { middle.tables with
          phantoms := middle.tables.phantoms.map fun phantoms => phantoms.insert key phantom } } := by
  unfold ensurePhantom at run
  rw [bind_eq (tables_apply _)] at run
  split at run
  · next unknown =>
      rcases bind_ok run with ⟨phantom, middle, adds, run⟩
      rw [editTables_apply] at run
      cases run
      exact .inr ⟨Option.isNone_iff_eq_none.1 unknown, phantom, middle, adds, rfl⟩
  · next known =>
      rcases pure_ok run with ⟨-, rfl⟩
      rw [Option.isNone_iff_eq_none] at known
      exact .inl ⟨Option.ne_none_iff_isSome.1 known, rfl⟩

/-! ## What actions preserve -/

variable {motive : RunState → Prop}

/-- Every successful run of the action keeps what is assumed of the state. -/
def Preserves (motive : RunState → Prop) (action : RunM α) : Prop :=
  ∀ state value final, motive state → action state = .ok value final → motive final

namespace Preserves

theorem pure (value : α) : Preserves motive (pure value) := by
  intro state result final holds run
  rcases pure_ok run with ⟨-, rfl⟩
  exact holds

theorem throw (fault : Fault) : Preserves motive (throw fault : RunM α) :=
  fun _ _ _ _ run => nomatch run

theorem bind {action : RunM α} {next : α → RunM β} (first : Preserves motive action)
    (second : ∀ value, Preserves motive (next value)) : Preserves motive (action >>= next) := by
  intro state value final holds run
  rcases bind_ok run with ⟨result, middle, firstRun, secondRun⟩
  exact second result _ _ _ (first _ _ _ holds firstRun) secondRun

theorem forM (list : List α) {action : α → RunM Unit}
    (each : ∀ value, Preserves motive (action value)) : Preserves motive (list.forM action) := by
  induction list with
  | nil => exact pure ()
  | cons head tail induction => exact (each head).bind fun _ => induction

end Preserves

end RunM

end SlotVersioning
