import SlotVersioning.Proofs.Run.Transfer

/-!
# Phantoms, copies and fields

Besides names and versions, a run keeps books: phantoms, copies and field slots. A visit adds to
them and takes nothing away (`act_keepsBooks`), and it records a copy under its own version only
(`act_copy?`).
-/

namespace SlotVersioning

open Std

/-- Storing what is stored changes nothing. -/
theorem insert_stored {α β : Type} {cmp : α → α → Ordering} [TransCmp cmp] [LawfulEqCmp cmp]
    {table : ExtTreeMap α β cmp} {key : α} {value : β} (stored : table[key]? = some value) :
    table.insert key value = table := by
  refine ExtTreeMap.ext_getElem? fun other => ?_
  rw [ExtTreeMap.getElem?_insert]
  split
  · next equal =>
      rw [LawfulEqCmp.compare_eq_iff_eq] at equal
      rw [← equal, stored]
  · rfl

/-- The source recorded for a version that is a copy. -/
def Tables.copy? (tables : Tables) (key : VersionKey) : Option VersionKey :=
  tables.copies.bind fun copies => copies[key]?

/-- What is recorded as the source when a value is assigned: the version of a variable, or the slot
of a field access that has one. -/
def Term.copied? (state : RunState) : Term → Option VersionKey
  | .variable source => some ⟨source.slot, state.version source.expression⟩
  | .field expression _ => (state.fieldSlot? expression).map (⟨·, 0⟩)
  | _ => none

/-- The state after a copy is recorded. -/
def RunState.withCopy (state : RunState) (definition source : VersionKey) : RunState :=
  { state with
    tables := { state.tables with
      copies := state.tables.copies.map fun copies => copies.insert definition source }
    events := .copied definition source :: state.events }

/-- The tables of phantoms, fields and copies are those of the given ones. -/
structure RunState.Books (books : Tables) (state : RunState) : Prop where
  phantoms : state.tables.phantoms = books.phantoms
  fields : state.tables.fields = books.fields
  copies : state.tables.copies = books.copies

/-- The same books are kept, and the phantoms in them stay. -/
structure KeepsBooks (before after : RunState) : Prop where
  phantoms : after.tables.phantoms.isSome = before.tables.phantoms.isSome
  fields : after.tables.fields.isSome = before.tables.fields.isSome
  copies : after.tables.copies.isSome = before.tables.copies.isSome
  phantom : ∀ key phantom, before.tables.phantom? key = some phantom →
    after.tables.phantom? key = some phantom

namespace KeepsBooks

variable {first second third : RunState}

theorem trans (left : KeepsBooks first second) (right : KeepsBooks second third) :
    KeepsBooks first third where
  phantoms := right.phantoms.trans left.phantoms
  fields := right.fields.trans left.fields
  copies := right.copies.trans left.copies
  phantom := fun key phantom known => right.phantom key phantom (left.phantom key phantom known)

theorem of_books (books : second.Books first.tables) : KeepsBooks first second where
  phantoms := by rw [books.phantoms]
  fields := by rw [books.fields]
  copies := by rw [books.copies]
  phantom := fun key _ known => (Tables.phantom?_congr books.phantoms key).trans known

end KeepsBooks

namespace RunM

variable {site : Site} {target : VariableSite} {value : Term} {key : VersionKey}
  {facts result : Facts} {state final : RunState}

theorem indifferent_books (books : Tables) : Indifferent (RunState.Books books) :=
  fun _ _ _ _ _ _ _ holds => ⟨holds.phantoms, holds.fields, holds.copies⟩

theorem books_refl (state : RunState) : state.Books state.tables := ⟨rfl, rfl, rfl⟩

/-! ## Copies -/

theorem recordCopy_off (off : state.tables.copies = none) :
    recordCopy target value state = .ok () state := by
  unfold recordCopy
  rw [bind_eq (tables_apply _), off]
  rfl

/-- Recording a copy records its source, if the value has one. -/
theorem recordCopy_on (on : state.tables.copies.isSome) :
    recordCopy target value state = .ok ()
      ((value.copied? state).elim state
        (state.withCopy ⟨target.slot, state.version target.expression⟩)) := by
  unfold recordCopy
  rw [bind_eq (tables_apply _), if_pos on, bind_eq (versionOf_apply _ _)]
  cases value with
  | field expression receiver =>
      have given : (state.tables.fields.bind fun fields => fields[expression]?) =
          state.fieldSlot? expression := rfl
      dsimp only [Term.copied?]
      rw [given]
      cases state.fieldSlot? expression <;> rfl
  | _ => rfl

theorem copy?_withCopy (on : state.tables.copies.isSome) (definition source : VersionKey) :
    (state.withCopy definition source).tables.copy? key =
      if definition = key then some source else state.tables.copy? key := by
  rcases Option.isSome_iff_exists.1 on with ⟨copies, stored⟩
  unfold Tables.copy? RunState.withCopy
  dsimp only
  rw [stored, Option.map_some, Option.bind_some, Option.bind_some, ExtTreeMap.getElem?_insert]
  simp only [Std.compare_eq_iff_eq]

/-- A copy that is recorded already is recorded again without a change to the tables. -/
theorem withCopy_same {definition source : VersionKey}
    (known : state.tables.copy? definition = some source) :
    (state.withCopy definition source).tables = state.tables := by
  rcases Option.bind_eq_some_iff.1 known with ⟨copies, stored, found⟩
  unfold RunState.withCopy
  dsimp only
  rw [stored, Option.map_some, insert_stored found, ← stored]

theorem recordCopy_cases (run : recordCopy target value state = .ok () final) :
    final = state ∨ ∃ source, state.tables.copies.isSome ∧ value.copied? state = some source ∧
      final = state.withCopy ⟨target.slot, state.version target.expression⟩ source := by
  cases on : state.tables.copies.isSome with
  | false =>
      rw [recordCopy_off (Option.not_isSome_iff_eq_none.1 (Bool.eq_false_iff.1 on))] at run
      cases run
      exact .inl rfl
  | true =>
      rw [recordCopy_on on] at run
      cases copied : value.copied? state with
      | none =>
          rw [copied] at run
          cases run
          exact .inl rfl
      | some source =>
          rw [copied] at run
          cases run
          exact .inr ⟨source, rfl, rfl, rfl⟩

/-- Afterwards the source is recorded. -/
theorem recordCopy_copied (run : recordCopy target value state = .ok () final)
    (on : final.tables.copies.isSome) {source : VersionKey}
    (found : value.copied? final = some source) :
    final.tables.copy? ⟨target.slot, final.version target.expression⟩ = some source := by
  rcases recordCopy_cases run with rfl | ⟨recorded, before, copied, rfl⟩
  · rw [recordCopy_on on, found] at run
    have kept := congrArg (fun state => Tables.copy? (RunState.tables state)
      ⟨target.slot, final.version target.expression⟩) (EStateM.Result.ok.inj run).2
    refine kept.symm.trans ((copy?_withCopy on _ _).trans (if_pos rfl))
  · have same : value.copied? (state.withCopy ⟨target.slot, state.version target.expression⟩
        recorded) = value.copied? state := by
      cases value <;> rfl
    rw [same, copied] at found
    cases found
    exact (copy?_withCopy before _ _).trans (if_pos rfl)

private theorem recordCopy_keepsBooks (run : recordCopy target value state = .ok () final) :
    KeepsBooks state final := by
  rcases recordCopy_cases run with rfl | ⟨source, -, -, rfl⟩
  · exact .of_books (books_refl _)
  · exact ⟨rfl, rfl, Option.isSome_map .., fun _ _ known => known⟩

/-! ## Phantoms -/

/-- A phantom is added to a version and recorded for it, unless one was recorded before. -/
theorem ensurePhantom_cases (run : ensurePhantom site key state = .ok () final) :
    final = state ∧ (state.tables.phantom? key).isSome ∨
      ∃ phantom middle, state.tables.phantom? key = none ∧
        addPhantom site key state = .ok phantom middle ∧ middle.Books state.tables ∧
        final = { middle with tables := { middle.tables with
          phantoms := middle.tables.phantoms.map fun phantoms => phantoms.insert key phantom } } ∧
        (state.tables.phantoms.isSome → ∀ owner, final.tables.phantom? owner =
          if key = owner then some phantom else state.tables.phantom? owner) := by
  rcases ensurePhantom_parts run with ⟨known, rfl⟩ | ⟨unknown, phantom, middle, adds, rfl⟩
  · exact .inl ⟨rfl, known⟩
  · have books := (indifferent_books state.tables).addPhantom site key state phantom middle
      (books_refl state) adds
    refine .inr ⟨phantom, middle, unknown, adds, books, rfl, fun on owner => ?_⟩
    rcases Option.isSome_iff_exists.1 on with ⟨phantoms, stored⟩
    unfold Tables.phantom?
    dsimp only
    rw [books.phantoms, stored, Option.map_some, Option.bind_some, Option.bind_some,
      ExtTreeMap.getElem?_insert]
    simp only [Std.compare_eq_iff_eq]

/-- After an increment its version has a phantom. -/
private theorem ensurePhantom_books (run : ensurePhantom site key state = .ok () final) :
    KeepsBooks state final ∧ final.tables.copies = state.tables.copies ∧
      (final.tables.phantoms.isSome → (final.tables.phantom? key).isSome) := by
  rcases ensurePhantom_cases run with
    ⟨rfl, known⟩ | ⟨phantom, middle, unknown, -, books, recorded, lookup⟩
  · exact ⟨.of_books (books_refl _), rfl, fun _ => known⟩
  · have on : final.tables.phantoms.isSome = state.tables.phantoms.isSome := by
      rw [recorded, ← books.phantoms]
      exact Option.isSome_map ..
    refine ⟨⟨on, ?_, ?_, fun other kept found => ?_⟩, ?_, fun present => ?_⟩
    · rw [recorded]
      exact congrArg Option.isSome books.fields
    · rw [recorded]
      exact congrArg Option.isSome books.copies
    · have present : state.tables.phantoms.isSome := by
        rcases Option.bind_eq_some_iff.1 found with ⟨phantoms, stored, -⟩
        rw [stored]
        rfl
      rw [lookup present, if_neg, found]
      rintro rfl
      exact nomatch unknown.symm.trans found
    · rw [recorded]
      exact books.copies
    · rw [lookup (on ▸ present), if_pos rfl]
      rfl

theorem incrementVariable_books
    (run : incrementVariable site target facts state = .ok result final) :
    KeepsBooks state final ∧ final.tables.copies = state.tables.copies ∧
      (final.tables.phantoms.isSome →
        (final.tables.phantom? ⟨target.slot, final.version target.expression⟩).isSome) := by
  have version := (incrementVariable_ok run).1.version target.expression
  cases incrementVariable_cases run with
  | unrecorded off =>
      refine ⟨.of_books (books_refl _), rfl, fun on => ?_⟩
      rw [off] at on
      exact nomatch on
  | @recorded haunted _ on phantom live =>
      have ensured := ensurePhantom_books phantom
      have books := (indifferent_books haunted.tables).recordLive _ _ _ _ _ _ (books_refl _) live
      refine ⟨ensured.1.trans (.of_books books), books.copies.trans ensured.2.1, ?_⟩
      rw [version, Tables.phantom?_congr books.phantoms, books.phantoms]
      exact ensured.2.2

/-! ## Every visit -/

variable {place : Visit}

theorem slotOfField_books {expression : ExprId} {slot : Slot}
    (run : slotOfField expression state = .ok slot final) :
    KeepsBooks state final ∧ final.tables.copies = state.tables.copies := by
  rcases slotOfField_cases run with ⟨-, rfl⟩ | ⟨-, rfl, rfl⟩
  · exact ⟨.of_books (books_refl _), rfl⟩
  · exact ⟨⟨rfl, Option.isSome_map .., rfl, fun _ _ known => known⟩, rfl⟩

theorem act_keepsBooks (run : place.act site facts state = .ok result final) :
    KeepsBooks state final := by
  have kept := books_refl state
  cases act_ok run with
  | read reading => exact .of_books ((indifferent_books _).read _ _ _ kept reading)
  | define definition => exact .of_books ((indifferent_books _).define _ _ _ kept definition)
  | assign definition copy =>
      exact .trans (.of_books ((indifferent_books _).define _ _ _ kept definition))
        (recordCopy_keepsBooks copy)
  | increment reading increases =>
      exact .trans (.of_books ((indifferent_books _).read _ _ _ kept reading))
        (incrementVariable_books increases).1
  | field request => exact (slotOfField_books request).1
  | unversionedField | clobber => exact .of_books kept

/-- A visit records at most one copy: that of its own assignment. -/
theorem act_copies (run : place.act site facts state = .ok result final) :
    final.tables.copies = state.tables.copies ∨
      ∃ target value source, place = .assign target value ∧ value.copied? final = some source ∧
        ∀ key, final.tables.copy? key =
          if ⟨target.slot, final.version target.expression⟩ = key then some source
          else state.tables.copy? key := by
  have kept := books_refl state
  cases act_ok run with
  | read reading => exact .inl ((indifferent_books _).read _ _ _ kept reading).copies
  | define definition => exact .inl ((indifferent_books _).define _ _ _ kept definition).copies
  | @assign target value _ middle _ definition copy =>
      have books := (indifferent_books _).define _ _ _ kept definition
      rcases recordCopy_cases copy with rfl | ⟨source, on, copied, rfl⟩
      · exact .inl books.copies
      · refine .inr ⟨target, value, source, rfl, ?_, fun key => ?_⟩
        · rw [← copied]
          cases value <;> rfl
        · have before : middle.tables.copy? key = state.tables.copy? key := by
            unfold Tables.copy?
            rw [books.copies]
          rw [copy?_withCopy on, before]
          rfl
  | increment reading increases =>
      exact .inl ((incrementVariable_books increases).2.1.trans
        ((indifferent_books _).read _ _ _ kept reading).copies)
  | field request => exact .inl (slotOfField_books request).2
  | unversionedField | clobber => exact .inl rfl

/-- Copies are recorded under the versions of their definitions. -/
theorem act_copy? (run : place.act site facts state = .ok result final)
    (elsewhere : ∀ target, place.site? = some target → place.isRead = false →
      key ≠ ⟨target.slot, final.version target.expression⟩) :
    final.tables.copy? key = state.tables.copy? key := by
  rcases act_copies run with same | ⟨target, value, source, rfl, -, lookup⟩
  · unfold Tables.copy?
    rw [same]
  · rw [lookup, if_neg fun own => elsewhere target rfl rfl own.symm]

end RunM

/-- Courses keep books as their visits do. -/
theorem Course.run_keepsBooks {site : Site} {course : Course} {facts : Facts}
    {result : Facts × Facts} {before after : RunState}
    (run : course.run site facts before = .ok result after) : KeepsBooks before after :=
  Course.run_related (fun state => .of_books (RunM.books_refl state)) KeepsBooks.trans
    (fun _ _ _ _ _ acts => RunM.act_keepsBooks acts) run

end SlotVersioning
