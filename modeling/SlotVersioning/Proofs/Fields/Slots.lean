import SlotVersioning.Proofs.Ownership.Runs
import SlotVersioning.Proofs.Run.Recording

/-!
# The slots of field accesses

A field access is given a slot on its first visit, from minus one downwards, and no slot is given
twice (`FieldSlots`). Facts know fields under these slots only, in the one version that such a slot
has (`RunState.FieldFacts`). Runs uphold both, whatever else they do (`upholds_fieldSlots`).
-/

namespace SlotVersioning

open Std VersionGraph RunM

/-! ## Facts about fields -/

/-- The facts know fields under slots that were given, and in their one version. -/
def RunState.FieldFacts (state : RunState) (facts : Facts) : Prop :=
  ∀ slot < 0, ∀ version ∈ facts.reaching slot,
    version = 1 ∧ ∃ expression, state.fieldSlot? expression = some slot

namespace RunState.FieldFacts

variable {state before after : RunState} {facts : Facts} {slot : Slot}

theorem closed (state : RunState) : Facts.Closed state.FieldFacts where
  empty := by
    intro slot negative version member
    rw [Facts.reaching_empty] at member
    exact absurd member (VersionSet.not_mem_empty version)
  union := by
    intro left right first second slot negative version member
    rw [Facts.reaching_union, VersionSet.mem_union] at member
    exact member.elim (first slot negative version) (second slot negative version)
  subset := fun _ _ fieldFacts below slot negative version member =>
    fieldFacts slot negative version (below slot version member)

theorem mono (fieldFacts : before.FieldFacts facts) (keeps : KeepsFields before after) :
    after.FieldFacts facts := by
  intro slot negative version member
  rcases fieldFacts slot negative version member with ⟨only, expression, given⟩
  exact ⟨only, expression, keeps.fieldSlot expression slot given⟩

private theorem pin_ordinary (fieldFacts : state.FieldFacts facts) (ordinary : 0 ≤ slot)
    (version : Version) : state.FieldFacts (facts.pin slot version) := by
  intro other negative found member
  have different : other ≠ slot := Int.ne_of_lt (Int.lt_of_lt_of_le negative ordinary)
  rw [Facts.reaching_pin, if_neg different] at member
  exact fieldFacts other negative found member

private theorem pin_given (fieldFacts : state.FieldFacts facts) {expression : ExprId}
    (given : state.fieldSlot? expression = some slot) : state.FieldFacts (facts.pin slot 1) := by
  intro other negative found member
  rw [Facts.reaching_pin] at member
  split at member
  · next same => exact ⟨VersionSet.mem_singleton.1 member, expression, same ▸ given⟩
  · exact fieldFacts other negative found member

private theorem withoutFields (fieldFacts : state.FieldFacts facts) :
    state.FieldFacts facts.withoutFields := by
  refine (closed state).subset _ facts fieldFacts fun slot version member => ?_
  rw [Facts.reaching_withoutFields] at member
  split at member
  · exact member
  · exact absurd member (VersionSet.not_mem_empty version)

end RunState.FieldFacts

/-- What entered from outside knows no fields. -/
theorem Facts.From.nonneg {facts : Facts} {arrivals : List Slot} (enters : facts.From arrivals)
    (ordinary : ∀ slot ∈ arrivals, 0 ≤ slot) {slot : Slot} {version : Version}
    (member : version ∈ facts.reaching slot) : 0 ≤ slot := by
  rcases enters slot version member with ⟨index, found, -⟩
  exact ordinary slot (List.mem_of_getElem? found)

/-- The slots of fields are those of the other state, and the same slot is the next. -/
def RunState.SameSlots (before state : RunState) : Prop :=
  state.tables.nextFieldSlot = before.tables.nextFieldSlot ∧
    state.tables.fields = before.tables.fields

namespace RunState.SameSlots

variable {before after : RunState}

theorem refl (state : RunState) : state.SameSlots state := ⟨rfl, rfl⟩

theorem indifferent (before : RunState) : Indifferent before.SameSlots :=
  fun _ _ _ _ _ _ _ same => same

private theorem aloof (before : RunState) :
    Indifferent.Aloof before.SameSlots := fun _ _ _ same => same

private theorem fieldSlot (same : before.SameSlots after) :
    after.fieldSlot? = before.fieldSlot? := by
  funext expression
  unfold fieldSlot?
  rw [same.2]

end RunState.SameSlots

/-! ## Given slots -/

/-- The slots from minus one downwards were given, each to one field access that is visited
somewhere. -/
structure FieldSlots (body : Body) (state : RunState) : Prop where
  recorded : state.tables.fields.isSome
  next : state.tables.nextFieldSlot < 0
  placed : ∀ expression slot, state.fieldSlot? expression = some slot →
    body.Places (.field expression)
  apart : ∀ first second slot, state.fieldSlot? first = some slot →
    state.fieldSlot? second = some slot → first = second
  given : ∀ slot, (∃ expression, state.fieldSlot? expression = some slot) ↔
    state.tables.nextFieldSlot < slot ∧ slot < 0
  live : state.tables.Recording state.FieldFacts

/-- The field access has a slot. -/
def Named (state : RunState) (place : Visit) : Prop :=
  ∀ expression, place = .field expression → (state.fieldSlot? expression).isSome

private theorem KeepsFields.named {before after : RunState} (keeps : KeepsFields before after)
    {place : Visit} (named : Named before place) : Named after place := by
  intro expression visits
  rcases Option.isSome_iff_exists.1 (named expression visits) with ⟨slot, given⟩
  rw [keeps.fieldSlot expression slot given]
  rfl

theorem Tables.Recording.keepsFields {tables : Tables} {before after : RunState}
    (recording : tables.Recording before.FieldFacts) (keeps : KeepsFields before after) :
    tables.Recording after.FieldFacts :=
  fun graph stored facts recorded => (recording graph stored facts recorded).mono keeps

namespace RunM

variable {site : Site} {place : Visit} {facts result : Facts} {expression : ExprId} {slot : Slot}
  {state final : RunState}

/-- The first request for the slot of a field access takes the next slot, and another one takes
none. -/
private theorem slotOfField_ok (run : slotOfField expression state = .ok slot final)
    (recorded : state.tables.fields.isSome) :
    state.SameSlots final ∨
    (state.fieldSlot? expression = none ∧
      final.tables.nextFieldSlot = state.tables.nextFieldSlot - 1 ∧
      ∀ other, final.fieldSlot? other =
        if expression = other then some state.tables.nextFieldSlot else state.fieldSlot? other) := by
  rcases slotOfField_cases run with ⟨-, rfl⟩ | ⟨unknown, rfl, rfl⟩
  · exact .inl ⟨rfl, rfl⟩
  · rcases Option.isSome_iff_exists.1 recorded with ⟨fields, stored⟩
    refine .inr ⟨unknown, rfl, fun other => ?_⟩
    have inserted : (fields.insert expression state.tables.nextFieldSlot)[other]? =
        if expression = other then some state.tables.nextFieldSlot else fields[other]? := by
      rw [ExtTreeMap.getElem?_insert]
      simp only [Std.compare_eq_iff_eq]
    simp only [RunState.fieldSlot?, stored, Option.map_some, Option.bind_some]
    exact inserted

end RunM

namespace FieldSlots

variable {body : Body} {before after : RunState}

theorem of_same (slots : FieldSlots body before) (same : before.SameSlots after)
    (live : after.tables.Recording before.FieldFacts) : FieldSlots body after := by
  refine ⟨?_, ?_, ?_, ?_, ?_, live.keepsFields (.of_fields same.2)⟩
  · rw [same.2]
    exact slots.recorded
  · rw [same.1]
    exact slots.next
  · rw [same.fieldSlot]
    exact slots.placed
  · rw [same.fieldSlot]
    exact slots.apart
  · rw [same.fieldSlot, same.1]
    exact slots.given

/-- A new slot is given to an access that had none. -/
private theorem of_new (slots : FieldSlots body before) {expression : ExprId}
    (places : body.Places (.field expression)) (unknown : before.fieldSlot? expression = none)
    (next : after.tables.nextFieldSlot = before.tables.nextFieldSlot - 1)
    (fieldSlot : ∀ other, after.fieldSlot? other =
      if expression = other then some before.tables.nextFieldSlot else before.fieldSlot? other)
    (recorded : after.tables.fields.isSome) (live : after.tables.Recording after.FieldFacts) :
    FieldSlots body after := by
  have fresh (other : ExprId) : before.fieldSlot? other ≠ some before.tables.nextFieldSlot :=
    fun given => Int.lt_irrefl _ ((slots.given _).1 ⟨other, given⟩).1
  have lower : after.tables.nextFieldSlot < before.tables.nextFieldSlot := by
    rw [next]
    exact Int.sub_lt_self _ Int.one_pos
  have least {slot : Slot} (above : after.tables.nextFieldSlot < slot) :
      before.tables.nextFieldSlot ≤ slot := by
    rw [next] at above
    exact Int.le_of_sub_one_lt above
  refine ⟨recorded, Int.lt_trans lower slots.next, ?_, ?_, ?_, live⟩
  · intro other slot given
    rw [fieldSlot] at given
    split at given
    · next same => exact same ▸ places
    · exact slots.placed other slot given
  · intro first second slot left right
    rw [fieldSlot] at left right
    split at left <;> split at right
    · next one two => exact one.symm.trans two
    · exact absurd (right.trans left.symm) (fresh second)
    · exact absurd (left.trans right.symm) (fresh first)
    · exact slots.apart first second slot left right
  · intro slot
    constructor
    · rintro ⟨other, given⟩
      rw [fieldSlot] at given
      split at given
      · cases given
        exact ⟨lower, slots.next⟩
      · have old := (slots.given slot).1 ⟨other, given⟩
        exact ⟨Int.lt_trans lower old.1, old.2⟩
    · rintro ⟨above, negative⟩
      by_cases here : before.tables.nextFieldSlot = slot
      · exact ⟨expression, by rw [fieldSlot, if_pos rfl, here]⟩
      · have strictly := Int.lt_iff_le_and_ne.2 ⟨least above, here⟩
        rcases (slots.given slot).2 ⟨strictly, negative⟩ with ⟨other, given⟩
        have different : expression ≠ other := by
          rintro rfl
          exact nomatch unknown.symm.trans given
        exact ⟨other, by rw [fieldSlot, if_neg different, given]⟩

variable {site : Site} {place : Visit} {facts result : Facts}

/-- A request for the slot of a visited field access. -/
private theorem request (slots : FieldSlots body before) {expression : ExprId} {slot : Slot}
    (places : body.Places (.field expression))
    (run : slotOfField expression before = .ok slot after) : FieldSlots body after := by
  have keeps := slotOfField_keepsFields run
  have live := slotOfField_recordsGood expression before slot after slots.live run
  rcases slotOfField_ok run slots.recorded with same | ⟨unknown, next, fieldSlot⟩
  · exact slots.of_same same live
  · exact slots.of_new places unknown next fieldSlot (keeps.recorded slots.recorded)
      (live.keepsFields keeps)

private theorem act (slots : FieldSlots body before) (enters : before.FieldFacts facts)
    (places : body.Places place) (versioned : site.config.has .fieldVersions = true)
    (ordinary : ∀ target, place.site? = some target → 0 ≤ target.slot)
    (run : place.act site facts before = .ok result after) :
    FieldSlots body after ∧ after.FieldFacts result ∧ Named after place := by
  have keeps := act_keepsFields run
  have entered := enters.mono keeps
  have ofVariable {target : VariableSite} (visits : place.site? = some target) :
      FieldSlots body after ∧ after.FieldFacts result := by
    have pins (other : VariableSite) (version : Version) (here : place.site? = some other) :=
      enters.pin_ordinary (ordinary other here) version
    have live := act_recordsGood enters pins before result after slots.live run
    have same : before.SameSlots after :=
      (RunState.SameSlots.indifferent before).act (.aloof before) visits _ _ _ (.refl before) run
    refine ⟨slots.of_same same live, ?_⟩
    rw [act_pins run visits]
    exact entered.pin_ordinary (ordinary target visits) _
  cases place with
  | read target | define target | assign target value | increment target =>
      have kept := ofVariable rfl
      refine ⟨kept.1, kept.2, fun _ visits => ?_⟩
      cases visits
  | field expression =>
      simp only [Visit.act] at run
      rw [if_pos versioned] at run
      rcases bind_ok run with ⟨slot, middle, request, run⟩
      rcases pure_ok run with ⟨rfl, rfl⟩
      have given := slotOfField_given request slots.recorded
      refine ⟨slots.request places request, entered.pin_given given, fun other visits => ?_⟩
      cases visits
      rw [given]
      rfl
  | clobber =>
      rcases pure_ok run with ⟨rfl, rfl⟩
      unfold clobberFields
      rw [if_pos versioned]
      refine ⟨slots, enters.withoutFields, fun _ visits => ?_⟩
      cases visits

private theorem beside (slots : FieldSlots body before) (beside : Beside before after) :
    FieldSlots body after := by
  have same : before.SameSlots after := ⟨beside.nextFieldSlot, beside.fields⟩
  refine slots.of_same same fun graph stored facts recorded => ?_
  have nodes := beside.nodes
  rw [stored] at nodes
  rcases Option.map_eq_some_iff.1 nodes.symm with ⟨old, found, same⟩
  rcases recorded with ⟨position, node, present, live⟩
  rw [← same] at present
  exact slots.live old found facts ⟨position, node, present, live⟩

end FieldSlots

/-- Visits give slots to field accesses, and whatever they store knows fields under given slots. -/
theorem upholds_fieldSlots {config : Config} {body : Body}
    (versioned : config.has .fieldVersions = true)
    (ordinary : ∀ expression target, body.arena.site? expression = some target → 0 ≤ target.slot) :
    Upholds { config, body } (FieldSlots body) RunState.FieldFacts Named where
  closed := RunState.FieldFacts.closed
  act := by
    intro live statement name place facts result before after _ member slots enters run
    have acts := slots.act enters ⟨name, member⟩ versioned (fun target visits =>
      ordinary _ target (body.sitesIn_course name place member target visits)) run
    have keeps := act_keepsFields run
    exact ⟨acts.1, acts.2.1, acts.2.2, fun _ known => known.mono keeps,
      fun _ named => keeps.named named⟩
  beside := by
    intro before after beside slots
    have keeps : KeepsFields before after := .of_fields beside.fields
    exact ⟨slots.beside beside, fun _ known => known.mono keeps, fun _ named => keeps.named named⟩

end SlotVersioning
