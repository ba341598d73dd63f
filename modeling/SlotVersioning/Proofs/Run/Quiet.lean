import SlotVersioning.Proofs.Run.Inversion

/-!
# Quiet actions

Most actions of a run only keep books: they number versions, edit the version graph or fill a side
table. `Quiet` says what such an action leaves alone, namely the versions that are written, the phi
table and the facts stored at nodes, and that numbers only grow. It composes, so every action built
from quiet ones is quiet.
-/

namespace SlotVersioning

open Std

/-- The facts stored at nodes. -/
structure Stores where
  inFacts : ExtTreeMap NodeId Facts
  outFacts : ExtTreeMap NodeId Facts
  negativeFacts : ExtTreeMap NodeId Facts
  seeds : ExtTreeMap NodeId Facts

namespace RunState

def stores (state : RunState) : Stores where
  inFacts := state.tables.inFacts
  outFacts := state.tables.outFacts
  negativeFacts := state.tables.negativeFacts
  seeds := state.tables.seeds

/-- The slots of field accesses, given out already or next, are negative. -/
structure FieldsNegative (state : RunState) : Prop where
  next : state.tables.nextFieldSlot < 0
  given : ∀ (fields : ExtTreeMap ExprId Slot) (expression : ExprId) (slot : Slot),
    state.tables.fields = some fields → fields[expression]? = some slot → slot < 0

end RunState

structure Quiet (before after : RunState) : Prop where
  versions : after.versions = before.versions
  phi : after.tables.phi = before.tables.phi
  stores : after.stores = before.stores
  last : ∀ slot, before.last slot ≤ after.last slot
  fields : before.FieldsNegative → after.FieldsNegative

namespace Quiet

theorem refl (state : RunState) : Quiet state state :=
  ⟨rfl, rfl, rfl, fun _ => Nat.le_refl _, fun negative => negative⟩

theorem trans {first second third : RunState} (left : Quiet first second)
    (right : Quiet second third) : Quiet first third where
  versions := right.versions.trans left.versions
  phi := right.phi.trans left.phi
  stores := right.stores.trans left.stores
  last := fun slot => Nat.le_trans (left.last slot) (right.last slot)
  fields := fun negative => right.fields (left.fields negative)

theorem version {before after : RunState} (quiet : Quiet before after) (expression : ExprId) :
    after.version expression = before.version expression := by
  unfold RunState.version
  rw [quiet.versions]

/-- Editing the graph, the phantoms, the copies or the log is quiet. -/
theorem of_books {before after : RunState} (versions : after.versions = before.versions)
    (phi : after.tables.phi = before.tables.phi) (stores : after.stores = before.stores)
    (last : after.tables.lastVersions = before.tables.lastVersions)
    (next : after.tables.nextFieldSlot = before.tables.nextFieldSlot)
    (fields : after.tables.fields = before.tables.fields) : Quiet before after where
  versions := versions
  phi := phi
  stores := stores
  last := fun slot => Nat.le_of_eq (by rw [RunState.last, RunState.last, last])
  fields := fun negative => ⟨by rw [next]; exact negative.next, by
    rw [fields]
    exact negative.given⟩

end Quiet

namespace RunM

variable {α β : Type}

/-- Every successful run of the action is quiet. -/
def Quietly (action : RunM α) : Prop :=
  ∀ state value final, action state = .ok value final → Quiet state final

/-! ## Blocks -/

theorem quietly_pure (value : α) : Quietly (pure value : RunM α) := by
  intro state result final run
  rcases pure_ok run with ⟨-, rfl⟩
  exact .refl _

theorem quietly_throw (fault : Fault) : Quietly (throw fault : RunM α) :=
  fun _ _ _ run => nomatch run

theorem Quietly.bind {action : RunM α} {next : α → RunM β} (first : Quietly action)
    (second : ∀ value, Quietly (next value)) : Quietly (action >>= next) := by
  intro state value final run
  rcases bind_ok run with ⟨result, middle, firstRun, secondRun⟩
  exact (first _ _ _ firstRun).trans (second result _ _ _ secondRun)

private theorem quietly_forM (list : List α) {action : α → RunM Unit}
    (each : ∀ value, Quietly (action value)) : Quietly (list.forM action) := by
  induction list with
  | nil => exact quietly_pure ()
  | cons head tail induction => exact (each head).bind fun _ => induction

/-! ## Elementary actions -/

theorem quietly_tables : Quietly tables := by
  intro state value final run
  cases run
  exact .refl _

theorem quietly_report (event : Event) : Quietly (report event) := by
  intro state value final run
  cases run
  exact .of_books rfl rfl rfl rfl rfl rfl

theorem quietly_editGraph (edit : VersionGraph → VersionGraph) : Quietly (editGraph edit) := by
  intro state value final run
  cases run
  exact .of_books rfl rfl rfl rfl rfl rfl

theorem quietly_recordLive (site : Site) (key : VersionKey) (facts : Facts) :
    Quietly (recordLive site key facts) := by
  unfold recordLive
  split
  · exact quietly_editGraph _
  · exact quietly_pure ()

theorem quietly_mint (tree : StatementTree) (slot : Slot) (statement : Option StatementId) :
    Quietly (mint tree slot statement) := by
  intro state value final run
  cases run
  refine ⟨rfl, rfl, rfl, fun other => ?_, fun negative => ⟨negative.next, negative.given⟩⟩
  change _ ≤ (state.tables.lastVersions.insert slot (state.last slot + 1)).getD other 0
  rw [ExtTreeMap.getD_insert]
  split
  · next equal =>
      rw [Std.compare_eq_iff_eq] at equal
      subst equal
      exact Nat.le_succ _
  · exact Nat.le_refl _

theorem quietly_slotOfField (expression : ExprId) : Quietly (slotOfField expression) := by
  intro state value final run
  rcases slotOfField_cases run with ⟨-, rfl⟩ | ⟨-, rfl, rfl⟩
  · exact .refl _
  · refine ⟨rfl, rfl, rfl, fun _ => Nat.le_refl _, fun negative => ⟨?_, ?_⟩⟩
    · exact Int.lt_trans (Int.sub_lt_self _ Int.one_pos) negative.next
    · intro fields other slot stored found
      rcases Option.map_eq_some_iff.1 stored with ⟨before, beforeStored, rfl⟩
      rw [ExtTreeMap.getElem?_insert] at found
      split at found
      · cases found
        exact negative.next
      · exact negative.given before other slot beforeStored found

/-! ## Phis and phantoms -/

theorem quietly_addPhiInput (site : Site) (key : VersionKey) (target : Nat) (source : Version) :
    Quietly (addPhiInput site key target source) :=
  (quietly_mint _ _ _).bind fun _ => (quietly_editGraph _).bind fun _ => quietly_report _

theorem quietly_setGraph (graph : VersionGraph) :
    Quietly (editTables fun tables => { tables with graph := some graph }) := by
  intro state value final run
  cases run
  exact .of_books rfl rfl rfl rfl rfl rfl

theorem quietly_mergeInto (site : Site) (key : VersionKey) (sources : VersionSet) :
    Quietly (mergeInto site key sources) := by
  apply quietly_tables.bind
  intro before
  cases before.graph with
  | none => exact quietly_throw _
  | some graph =>
      exact (quietly_setGraph _).bind fun _ => quietly_forM _ (quietly_addPhiInput _ _ _)

private theorem quietly_addPhantom (site : Site) (key : VersionKey) :
    Quietly (addPhantom site key) := by
  refine (quietly_mint _ _ _).bind fun phantom => quietly_tables.bind fun before => ?_
  cases before.graph with
  | none => exact quietly_throw _
  | some graph =>
      exact (quietly_setGraph _).bind fun _ => (quietly_report _).bind fun _ =>
        (quietly_mergeInto _ _ _).bind fun _ => quietly_pure _

theorem quietly_ensurePhantom (site : Site) (key : VersionKey) :
    Quietly (ensurePhantom site key) := by
  apply quietly_tables.bind
  intro before
  split
  · apply (quietly_addPhantom _ _).bind
    intro phantom state value final run
    cases run
    exact .of_books rfl rfl rfl rfl rfl rfl
  · exact quietly_pure ()

/-- Recording a copy changes the copies and the log. -/
theorem recordCopy_ok {target : VariableSite} {value : Term} {state final : RunState}
    (run : recordCopy target value state = .ok () final) :
    ∃ copies events, final = { state with tables := { state.tables with copies }, events } := by
  unfold recordCopy at run
  rw [bind_eq (tables_apply _)] at run
  split at run
  · rw [bind_eq (versionOf_apply _ _)] at run
    -- The value decides what is recorded, and then recording is the same for all values.
    have stores {rest : RunM Unit} (run : rest state = .ok () final)
        (records : rest = pure () ∨ ∃ source, rest = do
          report (.copied ⟨target.slot, state.version target.expression⟩ source)
          editTables fun tables => { tables with
            copies := tables.copies.map fun assignments =>
              assignments.insert ⟨target.slot, state.version target.expression⟩ source }) :
        ∃ copies events, final = { state with tables := { state.tables with copies }, events } := by
      rcases records with rfl | ⟨source, rfl⟩
      · rcases pure_ok run with ⟨-, rfl⟩
        exact ⟨_, _, rfl⟩
      · rw [bind_eq (report_apply _ _), editTables_apply] at run
        cases run
        exact ⟨_, _, rfl⟩
    cases value with
    | «variable» site =>
        dsimp only at run
        rw [bind_eq (versionOf_apply _ _)] at run
        rcases bind_ok run with ⟨source, middle, chosen, run⟩
        rcases pure_ok chosen with ⟨rfl, rfl⟩
        exact stores run (.inr ⟨_, rfl⟩)
    | _ =>
        rcases bind_ok run with ⟨source, middle, chosen, run⟩
        rcases pure_ok chosen with ⟨-, rfl⟩
        apply stores run
        cases source with
        | none => exact .inl rfl
        | some source => exact .inr ⟨source, rfl⟩
  · rcases pure_ok run with ⟨-, rfl⟩
    exact ⟨_, _, rfl⟩

theorem quietly_recordCopy (target : VariableSite) (value : Term) :
    Quietly (recordCopy target value) := by
  intro state value final run
  rcases recordCopy_ok run with ⟨copies, events, rfl⟩
  exact .of_books rfl rfl rfl rfl rfl rfl

end RunM

end SlotVersioning
