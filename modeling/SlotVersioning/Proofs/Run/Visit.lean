import SlotVersioning.Proofs.Course.Carry
import SlotVersioning.Proofs.Run.Reading

/-!
# One visit

What every visit has in common, with and without usage versions. Afterwards the version of the
visited site is the only one that reaches its slot, whether it was minted, kept or adopted, and the
other slots of variables are reached by what reached them before (`act_reaching`). No version is
written elsewhere (`act_frame`).
-/

namespace SlotVersioning

/-- No versions are written but at the given expressions. -/
structure Frame (written : List ExprId) (before after : RunState) : Prop where
  version : ∀ expression, expression ∉ written →
    after.version expression = before.version expression
  stores : after.stores = before.stores
  last : ∀ slot, before.last slot ≤ after.last slot
  fields : before.FieldsNegative → after.FieldsNegative

namespace Frame

theorem refl (state : RunState) : Frame [] state state :=
  ⟨fun _ _ => rfl, rfl, fun _ => Nat.le_refl _, fun negative => negative⟩

theorem trans {left right : List ExprId} {first second third : RunState}
    (before : Frame left first second) (after : Frame right second third) :
    Frame (left ++ right) first third where
  version := by
    intro expression outside
    rw [List.mem_append, not_or] at outside
    rw [after.version expression outside.2, before.version expression outside.1]
  stores := after.stores.trans before.stores
  last := fun slot => Nat.le_trans (before.last slot) (after.last slot)
  fields := fun negative => after.fields (before.fields negative)

private theorem of_quiet {before after : RunState} (quiet : Quiet before after) :
    Frame [] before after :=
  ⟨fun expression _ => quiet.version expression, quiet.stores, quiet.last, quiet.fields⟩

private theorem of_touches {target : VariableSite} {before after : RunState}
    (touches : Touches target before after) : Frame [target.expression] before after where
  version := fun expression outside => touches.others expression (by simpa using outside)
  stores := touches.stores
  last := touches.last
  fields := touches.fields

end Frame

namespace RunM

/-! ## Reads and increments -/

namespace Reading

variable {site : Site} {target : VariableSite} {facts result : Facts} {before after : RunState}

private theorem touches (reading : Reading site target facts before result after) :
    Touches target before after := by
  cases reading with
  | undefined unreached run => exact (define_ok run).stamps.toTouches
  | adopting only plain reached =>
      refine { others := fun expression different => ?_, stores := rfl,
               last := fun _ => Nat.le_refl _,
               fields := fun negative => ⟨negative.next, negative.given⟩ }
      rw [RunState.version_insert, if_neg fun equal => different equal.symm]
  | splitting source usage reached run => exact (splitRead_ok run).stamps.toTouches
  | merging usage several run => exact (mergeRead_ok run).stamps.toTouches
  | tabulating plain several run =>
      rcases tabulateRead_ok run with ⟨phi, -, tabulating⟩
      exact tabulating.touches

theorem reaching (reading : Reading site target facts before result after) (slot : Slot) :
    result.reaching slot =
      if target.slot = slot then {after.version target.expression} else facts.reaching slot := by
  have pinned {version : Version} (pins : result = facts.pin target.slot version) :
      result.reaching slot = if target.slot = slot then {version} else facts.reaching slot := by
    rw [pins, Facts.reaching_pin]
    simp only [eq_comm]
  cases reading with
  | undefined unreached run => exact pinned (define_ok run).pins
  | adopting only plain reached =>
      rw [RunState.version_insert, if_pos rfl]
      split
      · next equal => rw [← equal, reached]
      · rfl
  | splitting source usage reached run => exact pinned (splitRead_ok run).pins
  | merging usage several run => exact pinned (mergeRead_ok run).pins
  | tabulating plain several run =>
      rcases tabulateRead_ok run with ⟨phi, -, tabulating⟩
      exact pinned tabulating.pins

end Reading

/-- What an increment does besides reading: nothing, or it records a phantom of its version. -/
inductive Increasing (site : Site) (target : VariableSite) (facts : Facts) (before : RunState) :
    Facts → RunState → Prop
  | unrecorded (off : before.tables.phantoms = none) :
      Increasing site target facts before facts before
  | recorded {haunted after : RunState} (on : before.tables.phantoms.isSome)
      (phantom : ensurePhantom site ⟨target.slot, before.version target.expression⟩ before =
        .ok () haunted)
      (live : recordLive site ⟨target.slot, before.version target.expression⟩ facts haunted =
        .ok () after) :
      Increasing site target facts before
        (facts.pin target.slot (before.version target.expression)) after

theorem incrementVariable_cases {site : Site} {target : VariableSite} {facts result : Facts}
    {state final : RunState} (run : incrementVariable site target facts state = .ok result final) :
    Increasing site target facts state result final := by
  unfold incrementVariable at run
  rw [bind_eq (tables_apply _)] at run
  split at run
  · next off =>
    rcases pure_ok run with ⟨rfl, rfl⟩
    exact .unrecorded (Option.isNone_iff_eq_none.1 off)
  · next on =>
    rw [bind_eq (versionOf_apply _ _)] at run
    rcases bind_ok run with ⟨_, haunted, phantom, run⟩
    rcases bind_ok run with ⟨_, _, live, run⟩
    rcases pure_ok run with ⟨rfl, rfl⟩
    rw [Option.isNone_iff_eq_none] at on
    exact .recorded (Option.ne_none_iff_isSome.1 on) phantom live

theorem incrementVariable_ok {site : Site} {target : VariableSite} {facts result : Facts}
    {state final : RunState} (run : incrementVariable site target facts state = .ok result final) :
    Quiet state final ∧
      (result = facts ∨ result = facts.pin target.slot (state.version target.expression)) := by
  cases incrementVariable_cases run with
  | unrecorded off => exact ⟨.refl _, .inl rfl⟩
  | recorded on phantom live =>
      exact ⟨(quietly_ensurePhantom _ _ _ _ _ phantom).trans
        (quietly_recordLive _ _ _ _ _ _ live), .inr rfl⟩

/-! ## Every visit -/

variable {site : Site} {place : Visit} {facts result : Facts} {state final : RunState}

/-- The ways in which a visit can go. -/
inductive Acting (site : Site) (facts : Facts) (before : RunState) :
    Visit → Facts → RunState → Prop
  | read {target : VariableSite} {result : Facts} {after : RunState}
      (reading : read site target facts before = .ok result after) :
      Acting site facts before (.read target) result after
  | define {target : VariableSite} {result : Facts} {after : RunState}
      (definition : define site target facts before = .ok result after) :
      Acting site facts before (.define target) result after
  | assign {target : VariableSite} {value : Term} {result : Facts} {middle after : RunState}
      (definition : define site target facts before = .ok result middle)
      (copy : recordCopy target value middle = .ok () after) :
      Acting site facts before (.assign target value) result after
  | increment {target : VariableSite} {picked result : Facts} {middle after : RunState}
      (reading : read site target facts before = .ok picked middle)
      (increases : incrementVariable site target picked middle = .ok result after) :
      Acting site facts before (.increment target) result after
  | field {expression : ExprId} {slot : Slot} {after : RunState}
      (request : slotOfField expression before = .ok slot after) :
      Acting site facts before (.field expression) (facts.pin slot 1) after
  | unversionedField {expression : ExprId} :
      Acting site facts before (.field expression) facts before
  | clobber : Acting site facts before .clobber (clobberFields site facts) before

theorem act_ok (run : place.act site facts state = .ok result final) :
    Acting site facts state place result final := by
  cases place with
  | read target => exact .read run
  | define target => exact .define run
  | assign target value =>
      rcases bind_ok run with ⟨defined, middle, definition, run⟩
      rcases bind_ok run with ⟨_, _, copy, run⟩
      rcases pure_ok run with ⟨rfl, rfl⟩
      exact .assign definition copy
  | increment target =>
      rcases bind_ok run with ⟨picked, middle, reading, run⟩
      exact .increment reading run
  | field expression =>
      unfold Visit.act at run
      dsimp only at run
      split at run
      · rcases bind_ok run with ⟨slot, middle, request, run⟩
        rcases pure_ok run with ⟨rfl, rfl⟩
        exact .field request
      · rcases pure_ok run with ⟨rfl, rfl⟩
        exact .unversionedField
  | clobber =>
      rcases pure_ok run with ⟨rfl, rfl⟩
      exact .clobber

theorem act_frame (run : place.act site facts state = .ok result final) :
    Frame place.written state final := by
  cases act_ok run with
  | read reading => exact .of_touches (read_ok reading).touches
  | define definition => exact .of_touches (define_ok definition).stamps.toTouches
  | assign definition copy =>
      exact .of_touches ((define_ok definition).stamps.toTouches.trans
        (quietly_recordCopy _ _ _ _ _ copy).touches)
  | increment reading increases =>
      exact .of_touches
        ((read_ok reading).touches.trans (incrementVariable_ok increases).1.touches)
  | field request => exact .of_quiet (quietly_slotOfField _ _ _ _ request)
  | unversionedField | clobber => exact .refl _

theorem slotOfField_negative {expression : ExprId} {slot : Slot} {state final : RunState}
    (run : slotOfField expression state = .ok slot final) (negative : state.FieldsNegative) :
    slot < 0 := by
  rcases slotOfField_cases run with ⟨found, rfl⟩ | ⟨-, rfl, rfl⟩
  · rcases Option.bind_eq_some_iff.1 found with ⟨fields, stored, found⟩
    exact negative.given fields expression slot stored found
  · exact negative.next

theorem act_reaching (run : place.act site facts state = .ok result final)
    (negative : state.FieldsNegative) {slot : Slot} (ordinary : 0 ≤ slot) :
    result.reaching slot = place.carry final.version slot (facts.reaching slot) := by
  cases act_ok run with
  | read reading => exact (read_ok reading).reaching slot
  | define definition =>
      rw [(define_ok definition).pins, Facts.reaching_pin]
      simp only [Visit.carry, Visit.site?, eq_comm]
  | assign definition copy =>
      rw [(define_ok definition).pins, Facts.reaching_pin]
      simp only [Visit.carry, Visit.site?, (quietly_recordCopy _ _ _ _ _ copy).version, eq_comm]
  | @increment target _ _ _ _ reading increases =>
      have picks := (read_ok reading).reaching slot
      rcases incrementVariable_ok increases with ⟨quiet, rfl | rfl⟩
      · simp only [picks, Visit.carry, Visit.site?, quiet.version]
      · simp only [Facts.reaching_pin, picks, Visit.carry, Visit.site?, quiet.version]
        by_cases same : target.slot = slot
        · rw [if_pos same, if_pos same.symm]
        · rw [if_neg same, if_neg fun equal => same equal.symm]
  | @field _ given _ request =>
      have below := slotOfField_negative request negative
      have different : slot ≠ given := fun equal =>
        absurd (equal ▸ below) (Int.not_lt.2 ordinary)
      rw [Facts.reaching_pin, if_neg different]
      rfl
  | unversionedField => rfl
  | clobber =>
      unfold clobberFields
      split
      · rw [Facts.reaching_withoutFields, if_pos ordinary]
        rfl
      · rfl

/-! ## Versions are kept -/

variable {target : VariableSite}

theorem Reading.stamps (reading : Reading site target facts state result final)
    (usage : site.config.has .usageVersions = true) : Stamps target state final := by
  cases reading with
  | undefined unreached run => exact (define_ok run).stamps
  | adopting only plain reached => exact absurd (plain.symm.trans usage) Bool.false_ne_true
  | splitting source _ reached run => exact (splitRead_ok run).stamps
  | merging _ several run => exact (mergeRead_ok run).stamps
  | tabulating plain several run => exact absurd (plain.symm.trans usage) Bool.false_ne_true

/-- With usage versions every visit stamps its site. -/
theorem act_stamps (run : place.act site facts state = .ok result final)
    (usage : site.config.has .usageVersions = true) (visits : place.site? = some target) :
    Stamps target state final := by
  cases act_ok run with
  | read reading =>
      cases visits
      exact (read_ok reading).stamps usage
  | increment reading increases =>
      cases visits
      exact ((read_ok reading).stamps usage).trans_quiet (incrementVariable_ok increases).1
  | define definition =>
      cases visits
      exact (define_ok definition).stamps
  | assign definition copy =>
      cases visits
      exact (define_ok definition).stamps.trans_quiet (quietly_recordCopy _ _ _ _ _ copy)
  | field | unversionedField | clobber => exact nomatch visits

theorem act_kept (run : place.act site facts state = .ok result final)
    (usage : site.config.has .usageVersions = true) {expression : ExprId}
    (versioned : state.version expression ≠ 0) :
    final.version expression = state.version expression := by
  by_cases written : expression ∈ place.written
  · rcases Visit.mem_written.1 written with ⟨target, visits, rfl⟩
    exact (act_stamps run usage visits).kept versioned
  · exact (act_frame run).version expression written

end RunM

end SlotVersioning
