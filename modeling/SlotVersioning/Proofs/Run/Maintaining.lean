import SlotVersioning.Proofs.Course.Walk

/-!
# What actions maintain

An action maintains what is assumed of the state when every run of it does, whether it succeeds or
fails. Elementary actions other than writing a version leave the versions alone, and so a visit
writes versions at its own site only (`Visit.act_maintains`).
-/

namespace SlotVersioning

/-- The state in which a run ends, however it ends. -/
def RunM.stateAfter {α : Type} (action : RunM α) (state : RunState) : RunState :=
  match action state with
  | .ok _ final => final
  | .error _ final => final

/-- Versions are written only at the expressions that are allowed. -/
def RunState.WrittenWithin (allowed : ExprId → Prop) (state : RunState) : Prop :=
  ∀ expression, ¬ allowed expression → state.version expression = 0

namespace RunM

variable {α β : Type} {motive : RunState → Prop}

/-- However a run of the action ends, it keeps what is assumed of the state. -/
def Maintains (motive : RunState → Prop) (action : RunM α) : Prop :=
  ∀ state, motive state → motive (action.stateAfter state)

namespace Maintains

/-! ## Blocks -/

theorem pure (value : α) : Maintains motive (pure value) := fun _ holds => holds

theorem throw (fault : Fault) : Maintains motive (throw fault : RunM α) := fun _ holds => holds

theorem bind {action : RunM α} {next : α → RunM β} (first : Maintains motive action)
    (second : ∀ value, Maintains motive (next value)) : Maintains motive (action >>= next) := by
  intro state holds
  have between := first state holds
  unfold stateAfter at between ⊢
  cases begun : action state with
  | ok value middle =>
      rw [begun] at between
      rw [bind_eq begun]
      exact second value middle between
  | error fault middle =>
      rw [begun] at between
      rw [bind_error begun]
      exact between

/-- What is made of the value of an action does not matter. -/
theorem of_map (change : α → β) {action : RunM α} (mapped : Maintains motive (change <$> action)) :
    Maintains motive action := by
  intro state holds
  have after := mapped state holds
  rw [map_eq_pure_bind] at after
  unfold stateAfter at after ⊢
  cases begun : action state with
  | ok value final => rwa [bind_eq begun] at after
  | error fault final => rwa [bind_error begun] at after

theorem forM {list : List α} {action : α → RunM Unit}
    (each : ∀ value ∈ list, Maintains motive (action value)) :
    Maintains motive (list.forM action) := by
  induction list with
  | nil => exact pure ()
  | cons head tail induction =>
      exact (each head List.mem_cons_self).bind fun _ =>
        induction fun value member => each value (List.mem_cons_of_mem _ member)

theorem foldlM {list : List α} {step : β → α → RunM β}
    (each : ∀ start, ∀ value ∈ list, Maintains motive (step start value)) (start : β) :
    Maintains motive (list.foldlM step start) := by
  induction list generalizing start with
  | nil => exact pure start
  | cons head tail induction =>
      rw [List.foldlM_cons]
      exact (each start head List.mem_cons_self).bind fun next =>
        induction (fun start value member => each start value (List.mem_cons_of_mem _ member)) next

theorem ofExcept (result : Except Fault α) : Maintains motive (ofExcept result) := by
  cases result with
  | error fault => exact throw fault
  | ok value => exact pure value

/-! ## Elementary actions -/

theorem tables : Maintains motive tables := fun _ holds => holds

theorem versionOf (expression : ExprId) : Maintains motive (versionOf expression) :=
  fun _ holds => holds

section

variable {allowed : ExprId → Prop}

theorem editTables (edit : Tables → Tables) :
    Maintains (RunState.WrittenWithin allowed) (editTables edit) := fun _ holds => holds

theorem editGraph (edit : VersionGraph → VersionGraph) :
    Maintains (RunState.WrittenWithin allowed) (editGraph edit) := fun _ holds => holds

theorem report (event : Event) : Maintains (RunState.WrittenWithin allowed) (report event) :=
  fun _ holds => holds

theorem mint (tree : StatementTree) (slot : Slot) (statement : Option StatementId) :
    Maintains (RunState.WrittenWithin allowed) (mint tree slot statement) := fun _ holds => holds

theorem slotOfField (expression : ExprId) :
    Maintains (RunState.WrittenWithin allowed) (slotOfField expression) := fun _ holds => holds

theorem recordLive (site : Site) (key : VersionKey) (facts : Facts) :
    Maintains (RunState.WrittenWithin allowed) (recordLive site key facts) := by
  unfold RunM.recordLive
  split
  · exact editGraph _
  · exact pure ()

theorem writeVersion {expression : ExprId} (isAllowed : allowed expression) (version : Version) :
    Maintains (RunState.WrittenWithin allowed) (writeVersion expression version) := by
  intro state within other forbidden
  change (state.versions.insert expression version).getD other 0 = 0
  rw [Std.ExtTreeMap.getD_insert]
  split
  · next same =>
      rw [Std.LawfulEqOrd.compare_eq_iff_eq] at same
      exact absurd (same ▸ isAllowed) forbidden
  · exact within other forbidden

/-! ## Reads and definitions -/

variable {site : Site} {target : VariableSite}

theorem define (isAllowed : allowed target.expression) (facts : Facts) :
    Maintains (RunState.WrittenWithin allowed) (define site target facts) := by
  refine (versionOf _).bind fun version => ?_
  split
  · exact (mint _ _ _).bind fun minted => (writeVersion isAllowed minted).bind fun _ =>
      (editGraph _).bind fun _ => pure _
  · exact (recordLive _ _ _).bind fun _ => pure _

private theorem splitRead (isAllowed : allowed target.expression) (source : Version)
    (facts : Facts) :
    Maintains (RunState.WrittenWithin allowed) (splitRead site target source facts) := by
  refine (versionOf _).bind fun version => ?_
  split
  · exact (mint _ _ _).bind fun minted => (writeVersion isAllowed minted).bind fun _ =>
      (editGraph _).bind fun _ => pure _
  · exact (recordLive _ _ _).bind fun _ => pure _

private theorem tabulateRead (isAllowed : allowed target.expression) (reaching : VersionSet)
    (facts : Facts) :
    Maintains (RunState.WrittenWithin allowed) (tabulateRead site target reaching facts) := by
  refine tables.bind fun before => ?_
  split
  · exact throw _
  · refine (versionOf _).bind fun version => ?_
    dsimp only
    split
    · exact (editTables _).bind fun _ => pure _
    · exact (mint _ _ _).bind fun minted => (writeVersion isAllowed minted).bind fun _ =>
        (report _).bind fun _ => (editTables _).bind fun _ => pure _

private theorem addPhiInput (key : VersionKey) (position : Nat) (source : Version) :
    Maintains (RunState.WrittenWithin allowed) (addPhiInput site key position source) :=
  (mint _ _ _).bind fun _ => (editGraph _).bind fun _ => report _

theorem mergeInto (key : VersionKey) (sources : VersionSet) :
    Maintains (RunState.WrittenWithin allowed) (mergeInto site key sources) := by
  refine tables.bind fun before => ?_
  split
  · exact throw _
  · exact (editTables _).bind fun _ => forM fun source _ => addPhiInput key _ source

private theorem addPhantom (key : VersionKey) :
    Maintains (RunState.WrittenWithin allowed) (addPhantom site key) := by
  refine (mint _ _ _).bind fun version => tables.bind fun before => ?_
  split
  · exact throw _
  · exact (editTables _).bind fun _ => (report _).bind fun _ =>
      (mergeInto key _).bind fun _ => pure _

private theorem ensurePhantom (key : VersionKey) :
    Maintains (RunState.WrittenWithin allowed) (ensurePhantom site key) := by
  refine tables.bind fun before => ?_
  split
  · exact (addPhantom key).bind fun _ => editTables _
  · exact pure ()

private theorem mergeRead (isAllowed : allowed target.expression) (reaching : VersionSet)
    (facts : Facts) :
    Maintains (RunState.WrittenWithin allowed) (mergeRead site target reaching facts) := by
  refine (versionOf _).bind fun version => ?_
  split
  · exact (mint _ _ _).bind fun minted => (writeVersion isAllowed minted).bind fun _ =>
      (editGraph _).bind fun _ => (mergeInto _ _).bind fun _ => pure _
  · exact (recordLive _ _ _).bind fun _ => (mergeInto _ _).bind fun _ => pure _

theorem read (isAllowed : allowed target.expression) (facts : Facts) :
    Maintains (RunState.WrittenWithin allowed) (read site target facts) := by
  unfold RunM.read
  dsimp only
  split
  · exact define isAllowed facts
  · split
    · exact splitRead isAllowed _ facts
    · exact (writeVersion isAllowed _).bind fun _ => pure _
  · split
    · exact mergeRead isAllowed _ facts
    · exact tabulateRead isAllowed _ facts

private theorem incrementVariable (facts : Facts) :
    Maintains (RunState.WrittenWithin allowed) (incrementVariable site target facts) := by
  refine tables.bind fun before => ?_
  split
  · exact pure _
  · exact (versionOf _).bind fun version => (ensurePhantom _).bind fun _ =>
      (recordLive _ _ _).bind fun _ => pure _

/-- A copy without a source is not noted. -/
private theorem noteCopy (definition : VersionKey) (source : Option VersionKey) :
    Maintains (RunState.WrittenWithin allowed) (match source with
      | none => Pure.pure ()
      | some source => do
          RunM.report (.copied definition source)
          RunM.editTables fun tables =>
            { tables with
              copies := tables.copies.map fun assignments =>
                assignments.insert definition source }) := by
  cases source with
  | none => exact pure ()
  | some source => exact (report _).bind fun _ => editTables _

theorem recordCopy (value : Term) :
    Maintains (RunState.WrittenWithin allowed) (recordCopy target value) := by
  refine tables.bind fun before => ?_
  split
  · refine (versionOf _).bind fun version => ?_
    dsimp only
    split
    · exact (versionOf _).bind fun _ => (pure _).bind (noteCopy _)
    · exact (pure _).bind (noteCopy _)
    · exact (pure _).bind (noteCopy _)
  · exact pure ()

end

end Maintains

end RunM

/-! ## Visits and courses -/

open RunM (Maintains)

variable {allowed : ExprId → Prop} {site : Site}

/-- A visit writes versions at its own site only. -/
theorem Visit.act_maintains {place : Visit} (within : ∀ expression ∈ place.written, allowed expression)
    (facts : Facts) : Maintains (RunState.WrittenWithin allowed) (place.act site facts) := by
  have here {target : VariableSite} (visits : place.site? = some target) :
      allowed target.expression := within _ (place.mem_written_of_site visits)
  cases place with
  | read target => exact .read (here rfl) facts
  | define target => exact .define (here rfl) facts
  | assign target value =>
      exact (Maintains.define (here rfl) facts).bind fun _ =>
        (Maintains.recordCopy value).bind fun _ => .pure _
  | increment target =>
      exact (Maintains.read (here rfl) facts).bind fun _ => .incrementVariable _
  | field expression =>
      simp only [act]
      split
      · exact (Maintains.slotOfField expression).bind fun _ => .pure _
      · exact .pure facts
  | clobber => exact .pure _

/-- A course writes versions at its own sites only. -/
theorem Course.run_maintains {course : Course}
    (within : ∀ expression ∈ course.sites, allowed expression) (facts : Facts) :
    Maintains (RunState.WrittenWithin allowed) (course.run site facts) := by
  induction course generalizing facts with
  | free => exact .pure _
  | settled outcome => cases outcome <;> exact .pure _
  | stuck fault => exact .throw fault
  | visit place =>
      have written : ∀ expression ∈ place.written, allowed expression := fun expression member =>
        within expression (List.mem_flatMap.2 ⟨place, List.mem_cons_self, member⟩)
      exact (place.act_maintains written facts).bind fun _ => .pure _
  | chain first rest firstInduction restInduction =>
      rw [sites, visits, List.flatMap_append, List.forall_mem_append] at within
      exact (firstInduction within.1 facts).bind fun before => restInduction within.2 _
  | test condition onTrue onFalse conditionInduction trueInduction falseInduction =>
      rw [sites, visits, List.flatMap_append, List.flatMap_append, List.forall_mem_append,
        List.forall_mem_append] at within
      exact (conditionInduction within.1 facts).bind fun tested =>
        (trueInduction within.2.1 _).bind fun _ => (falseInduction within.2.2 _).bind fun _ =>
          .pure _

end SlotVersioning
