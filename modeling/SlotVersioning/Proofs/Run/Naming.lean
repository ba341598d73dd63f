import SlotVersioning.Proofs.Run.Indifferent

/-!
# Names are kept

A run names what it finds: it numbers versions and writes them at sites, and it gives slots to field
accesses. The slot of a field access is never changed (`act_keepsFields`), for only a request for the
slot of a field touches the table of field slots. With usage versions, no name that was given is ever
changed (`act_keeps`).
-/

namespace SlotVersioning

open Std

namespace RunState

/-- The slot that was given to a field access. -/
def fieldSlot? (state : RunState) (expression : ExprId) : Option Slot :=
  state.tables.fields.bind fun fields => fields[expression]?

/-- The table of field slots is the given one. -/
def Names (fields : Option (ExtTreeMap ExprId Slot)) (state : RunState) : Prop :=
  state.tables.fields = fields

end RunState

namespace RunM

open RunState

variable {fields : Option (ExtTreeMap ExprId Slot)}

theorem indifferent_names : Indifferent (Names fields) :=
  fun _ _ _ _ _ _ _ holds => holds

private theorem aloof_names : Indifferent.Aloof (Names fields) :=
  fun _ _ _ holds => holds

end RunM

/-! ## Keeping names -/

/-- The field slots that were given are still given, and still recorded. -/
structure KeepsFields (before after : RunState) : Prop where
  fieldSlot : ∀ expression slot, before.fieldSlot? expression = some slot →
    after.fieldSlot? expression = some slot
  recorded : before.tables.fields.isSome → after.tables.fields.isSome

namespace KeepsFields

theorem refl (state : RunState) : KeepsFields state state :=
  ⟨fun _ _ given => given, fun recorded => recorded⟩

theorem trans {first second third : RunState} (left : KeepsFields first second)
    (right : KeepsFields second third) : KeepsFields first third where
  fieldSlot := fun expression slot given =>
    right.fieldSlot expression slot (left.fieldSlot expression slot given)
  recorded := fun recorded => right.recorded (left.recorded recorded)

theorem of_fields {before after : RunState} (same : after.tables.fields = before.tables.fields) :
    KeepsFields before after where
  fieldSlot := by
    unfold RunState.fieldSlot?
    rw [same]
    exact fun _ _ given => given
  recorded := by
    rw [same]
    exact fun recorded => recorded

end KeepsFields

/-- The names that were given are still given: versions at sites, and field slots. -/
structure Keeps (before after : RunState) : Prop extends KeepsFields before after where
  version : ∀ expression, before.version expression ≠ 0 →
    after.version expression = before.version expression

namespace Keeps

theorem refl (state : RunState) : Keeps state state := ⟨.refl state, fun _ _ => rfl⟩

theorem trans {first second third : RunState} (left : Keeps first second)
    (right : Keeps second third) : Keeps first third where
  toKeepsFields := left.toKeepsFields.trans right.toKeepsFields
  version := by
    intro expression versioned
    have early := left.version expression versioned
    rw [← early] at versioned
    exact (right.version expression versioned).trans early

/-- Versions are kept names while no field is named. -/
theorem of_versions {before after : RunState}
    (versions : ∀ expression, before.version expression ≠ 0 →
      after.version expression = before.version expression)
    (fields : after.tables.fields = before.tables.fields) : Keeps before after :=
  ⟨.of_fields fields, versions⟩

end Keeps

namespace RunM

variable {site : Site} {place : Visit} {facts result : Facts} {state final : RunState}

/-- A field access has the slot that it was given. -/
theorem slotOfField_given {expression : ExprId} {slot : Slot}
    (run : slotOfField expression state = .ok slot final)
    (recorded : state.tables.fields.isSome) :
    final.fieldSlot? expression = some slot := by
  unfold RunState.fieldSlot?
  rcases slotOfField_cases run with ⟨found, rfl⟩ | ⟨-, rfl, rfl⟩
  · exact found
  · rcases Option.isSome_iff_exists.1 recorded with ⟨fields, stored⟩
    rw [stored]
    exact ExtTreeMap.getElem?_insert_self

theorem slotOfField_keepsFields {expression : ExprId} {slot : Slot}
    (run : slotOfField expression state = .ok slot final) : KeepsFields state final := by
  rcases slotOfField_cases run with ⟨-, rfl⟩ | ⟨unknown, rfl, rfl⟩
  · exact ⟨fun _ _ stored => stored, fun recorded => recorded⟩
  · refine ⟨fun other given stored => ?_, fun recorded => (Option.isSome_map ..).trans recorded⟩
    unfold RunState.fieldSlot? at *
    rcases Option.bind_eq_some_iff.1 stored with ⟨fields, found, present⟩
    rw [found] at unknown ⊢
    change (fields.insert expression _)[other]? = some given
    rw [ExtTreeMap.getElem?_insert, if_neg, present]
    rw [Std.compare_eq_iff_eq]
    rintro rfl
    rw [Option.bind_some, present] at unknown
    exact nomatch unknown

/-- A visit keeps the field slots that were given before it. -/
theorem act_keepsFields (run : place.act site facts state = .ok result final) :
    KeepsFields state final := by
  have named {target : VariableSite} (visits : place.site? = some target) :
      KeepsFields state final :=
    .of_fields (indifferent_names.act aloof_names visits _ _ _ rfl run)
  cases act_ok run with
  | read | define | assign | increment => exact named rfl
  | field request => exact slotOfField_keepsFields request
  | unversionedField | clobber => exact .refl _

/-- With usage versions a visit keeps the names that were given before it. -/
theorem act_keeps (run : place.act site facts state = .ok result final)
    (usage : site.config.has .usageVersions = true) : Keeps state final :=
  ⟨act_keepsFields run, fun _ versioned => act_kept run usage versioned⟩

end RunM

end SlotVersioning
