import SlotVersioning.Proofs.Body.Regular
import SlotVersioning.Proofs.Run.Again
import SlotVersioning.Proofs.Run.Transfer

/-!
# Fields along walks

A field access is remembered from its visit until the fields are clobbered. The slot of a field
leaves a course with some outcome exactly if some walk through the course with this outcome
remembers an access that has the slot, or the slot entered and the walk clobbers nothing
(`Course.mem_ending_iff`).
-/

namespace SlotVersioning

/-! ## What visits remember -/

/-- No visit forgets the fields. -/
def Unclobbered (visits : List Visit) : Prop := Visit.clobber ∉ visits

/-- The field access is visited, and no fields are forgotten from then on. -/
def Remembers (expression : ExprId) (visits : List Visit) : Prop :=
  ∃ earlier later, visits = earlier ++ .field expression :: later ∧ Unclobbered later

theorem unclobbered_append {left right : List Visit} :
    Unclobbered (left ++ right) ↔ Unclobbered left ∧ Unclobbered right := by
  unfold Unclobbered
  rw [List.mem_append, not_or]

theorem Unclobbered.append {left right : List Visit} (before : Unclobbered left)
    (after : Unclobbered right) : Unclobbered (left ++ right) :=
  unclobbered_append.2 ⟨before, after⟩

private theorem remembers_append {expression : ExprId} {left right : List Visit} :
    Remembers expression (left ++ right) ↔
      Remembers expression right ∨ Remembers expression left ∧ Unclobbered right := by
  constructor
  · rintro ⟨earlier, later, split, spared⟩
    rcases Course.cases_of_append split with ⟨rest, rfl⟩ | ⟨between, rfl, rfl⟩
    · have tail : rest ++ right = later := by simpa using split
      subst tail
      rw [unclobbered_append] at spared
      exact .inr ⟨⟨earlier, rest, rfl, spared.1⟩, spared.2⟩
    · exact .inl ⟨between, later, rfl, spared⟩
  · rintro (⟨earlier, later, rfl, spared⟩ | ⟨⟨earlier, later, rfl, spared⟩, after⟩)
    · exact ⟨left ++ earlier, later, by simp, spared⟩
    · exact ⟨earlier, later ++ right, by simp, spared.append after⟩

/-! ## Facts along visits -/

/-- The facts that leave a course with the outcome. -/
def Course.ending (config : Config) (names : RunState) (course : Course) (facts : Facts)
    (outcome : Bool) : Facts :=
  if outcome then (course.transfer config names facts).1 else (course.transfer config names facts).2

section

variable (config : Config) (names : RunState) (facts : Facts) (outcome : Bool)

private theorem Course.ending_free : free.ending config names facts outcome = facts :=
  ite_self facts

private theorem Course.ending_settled (fixed : Bool) :
    (settled fixed).ending config names facts outcome = if fixed = outcome then facts else ∅ := by
  cases fixed <;> cases outcome <;> rfl

private theorem Course.ending_stuck (fault : Fault) :
    (stuck fault).ending config names facts outcome = ∅ := ite_self ∅

private theorem Course.ending_visit (place : Visit) :
    (visit place).ending config names facts outcome = place.transfer config names facts :=
  ite_self _

private theorem Course.ending_chain (first rest : Course) :
    (chain first rest).ending config names facts outcome =
      rest.ending config names (first.ending config names facts true ∪
        first.ending config names facts false) outcome := rfl

private theorem Course.ending_test (condition onTrue onFalse : Course) :
    (test condition onTrue onFalse).ending config names facts outcome =
      onTrue.ending config names (condition.ending config names facts true) outcome ∪
        onFalse.ending config names (condition.ending config names facts false) outcome := by
  cases outcome <;> rfl

end

/-- The slot is remembered after the visits: it was known before and no fields were forgotten, or
an access that has it was visited since they were. -/
def RunState.Known (names : RunState) (slot : Slot) (before : Prop) (visits : List Visit) : Prop :=
  before ∧ Unclobbered visits ∨
    ∃ expression, names.fieldSlot? expression = some slot ∧ Remembers expression visits

section

variable {names : RunState} {slot : Slot} {before : Prop} {left right : List Visit}

theorem known_append : names.Known slot before (left ++ right) ↔
    names.Known slot (names.Known slot before left) right := by
  unfold RunState.Known
  simp only [unclobbered_append, remembers_append]
  constructor
  · rintro (⟨entered, spared⟩ | ⟨expression, given, late | ⟨early, spared⟩⟩)
    · exact .inl ⟨.inl ⟨entered, spared.1⟩, spared.2⟩
    · exact .inr ⟨expression, given, late⟩
    · exact .inl ⟨.inr ⟨expression, given, early⟩, spared⟩
  · rintro (⟨⟨entered, early⟩ | ⟨expression, given, early⟩, spared⟩ | ⟨expression, given, late⟩)
    · exact .inl ⟨entered, early, spared⟩
    · exact .inr ⟨expression, given, .inr ⟨early, spared⟩⟩
    · exact .inr ⟨expression, given, .inl late⟩

theorem known_nil : names.Known slot before [] ↔ before := by
  unfold RunState.Known Unclobbered Remembers
  simp

private theorem remembers_singleton {expression : ExprId} {place : Visit} :
    Remembers expression [place] ↔ place = .field expression := by
  constructor
  · rintro ⟨earlier, later, split, -⟩
    have member : Visit.field expression ∈ [place] := by simp [split]
    exact (List.mem_singleton.1 member).symm
  · rintro rfl
    exact ⟨[], [], rfl, List.not_mem_nil⟩

/-- After one visit the slot is remembered if the visit does not forget it, or if it adds it. -/
private theorem known_singleton {place : Visit} : names.Known slot before [place] ↔
    before ∧ place ≠ .clobber ∨
      ∃ expression, names.fieldSlot? expression = some slot ∧ place = .field expression := by
  unfold RunState.Known Unclobbered
  simp only [List.mem_singleton, remembers_singleton, ne_eq, eq_comm]

theorem RunState.Known.imp {after : Prop} (known : names.Known slot before left)
    (implies : before → after) : names.Known slot after left :=
  known.imp_left fun entered => ⟨implies entered.1, entered.2⟩

/-- What is remembered in the end was brought by what comes before, or it was added since. -/
theorem RunState.Known.prepend {after : Prop} {ways : List Visit → Prop}
    (known : names.Known slot after right) (possible : ∃ left, ways left)
    (brought : after → ∃ left, ways left ∧ names.Known slot before left) :
    ∃ left, ways left ∧ names.Known slot before (left ++ right) := by
  rcases known with ⟨entered, spared⟩ | added
  · rcases brought entered with ⟨left, way, early⟩
    exact ⟨left, way, known_append.2 (.inl ⟨early, spared⟩)⟩
  · rcases possible with ⟨left, way⟩
    exact ⟨left, way, known_append.2 (.inr added)⟩

end

/-! ## What courses recall -/

/-- Some walk through the course with the outcome remembers the slot. -/
def Course.Recalls (names : RunState) (slot : Slot) (before : Prop) (course : Course)
    (outcome : Bool) : Prop :=
  ∃ visits, course.Walk visits outcome ∧ names.Known slot before visits

namespace Course

variable {names : RunState} {slot : Slot} {before : Prop} {outcome : Bool}

private theorem recalls_free : free.Recalls names slot before outcome ↔ before := by
  constructor
  · rintro ⟨visits, walk, known⟩
    cases walk
    exact known_nil.1 known
  · exact fun entered => ⟨[], .free outcome, known_nil.2 entered⟩

private theorem recalls_settled {fixed : Bool} :
    (settled fixed).Recalls names slot before outcome ↔ fixed = outcome ∧ before := by
  constructor
  · rintro ⟨visits, walk, known⟩
    cases walk
    exact ⟨rfl, known_nil.1 known⟩
  · rintro ⟨rfl, entered⟩
    exact ⟨[], .settled fixed, known_nil.2 entered⟩

private theorem not_recalls_stuck {fault : Fault} :
    ¬ (stuck fault).Recalls names slot before outcome := by
  rintro ⟨visits, walk, -⟩
  cases walk

private theorem recalls_visit {place : Visit} :
    (visit place).Recalls names slot before outcome ↔ names.Known slot before [place] := by
  constructor
  · rintro ⟨visits, walk, known⟩
    cases walk
    exact known
  · exact fun known => ⟨[place], .visit place outcome, known⟩

/-- What a chain recalls, its second part recalls after whatever outcome of the first. -/
private theorem recalls_chain {first rest : Course} (possible : ∃ middle, first.Possible middle) :
    (chain first rest).Recalls names slot before outcome ↔
      rest.Recalls names slot (first.Recalls names slot before true ∨
        first.Recalls names slot before false) outcome := by
  constructor
  · rintro ⟨visits, walk, known⟩
    cases walk with
    | @chain _ _ left right middle _ early late =>
        refine ⟨right, late, (known_append.1 known).imp fun entered => ?_⟩
        cases middle with
        | true => exact .inl ⟨left, early, entered⟩
        | false => exact .inr ⟨left, early, entered⟩
  · rintro ⟨right, late, known⟩
    have walks : ∃ left middle, first.Walk left middle := by
      rcases possible with ⟨middle, left, early⟩
      exact ⟨left, middle, early⟩
    have brought : first.Recalls names slot before true ∨ first.Recalls names slot before false →
        ∃ left, (∃ middle, first.Walk left middle) ∧ names.Known slot before left := by
      rintro (⟨left, early, entered⟩ | ⟨left, early, entered⟩)
      · exact ⟨left, ⟨true, early⟩, entered⟩
      · exact ⟨left, ⟨false, early⟩, entered⟩
    rcases known.prepend walks brought with ⟨left, ⟨middle, early⟩, whole⟩
    exact ⟨left ++ right, .chain early late, whole⟩

/-- What a test recalls, one of its arms recalls after the outcome that leads to it. -/
private theorem recalls_test {condition onTrue onFalse : Course}
    (possible : ∀ tested, condition.Possible tested) :
    (test condition onTrue onFalse).Recalls names slot before outcome ↔
      onTrue.Recalls names slot (condition.Recalls names slot before true) outcome ∨
        onFalse.Recalls names slot (condition.Recalls names slot before false) outcome := by
  constructor
  · rintro ⟨visits, walk, known⟩
    cases walk with
    | @onTrue _ _ _ left right _ held late =>
        exact .inl ⟨right, late, (known_append.1 known).imp fun entered => ⟨left, held, entered⟩⟩
    | @onFalse _ _ _ left right _ failed late =>
        exact .inr ⟨right, late, (known_append.1 known).imp fun entered => ⟨left, failed, entered⟩⟩
  · rintro (⟨right, late, known⟩ | ⟨right, late, known⟩)
    · rcases known.prepend (possible true) id with ⟨left, held, whole⟩
      exact ⟨left ++ right, .onTrue held late, whole⟩
    · rcases known.prepend (possible false) id with ⟨left, failed, whole⟩
      exact ⟨left ++ right, .onFalse failed late, whole⟩

end Course

/-! ## Facts along walks -/

section

variable {config : Config} {names : RunState} {slot : Slot} {facts : Facts} {outcome : Bool}
  (versioned : config.has .fieldVersions = true) (negative : slot < 0)

include versioned negative

theorem Visit.mem_transfer_iff {place : Visit}
    (ordinary : ∀ target, place.site? = some target → 0 ≤ target.slot) :
    1 ∈ (place.transfer config names facts).reaching slot ↔
      names.Known slot (1 ∈ facts.reaching slot) [place] := by
  rw [known_singleton]
  have ofVariable {target : VariableSite} (visits : place.site? = some target) :
      1 ∈ (facts.pin target.slot (names.version target.expression)).reaching slot ↔
        1 ∈ facts.reaching slot ∧ place ≠ .clobber ∨
          ∃ expression, names.fieldSlot? expression = some slot ∧ place = .field expression := by
    have different : slot ≠ target.slot := by
      exact Int.ne_of_lt (Int.lt_of_lt_of_le negative (ordinary target visits))
    rw [Facts.reaching_pin, if_neg different]
    cases place <;> simp_all [site?]
  cases place with
  | read target | define target | assign target value | increment target => exact ofVariable rfl
  | field expression =>
      rw [transfer, if_pos versioned, Facts.reaching_pin]
      cases given : names.fieldSlot? expression with
      | none =>
          have different : slot ≠ 0 := Int.ne_of_lt negative
          simp [different, given]
      | some own =>
          by_cases same : slot = own
          · simp [same, given]
          · simp [same, given, Ne.symm same]
  | clobber =>
      have outside : ¬ 0 ≤ slot := Int.not_le.2 negative
      rw [transfer, if_pos versioned, Facts.reaching_withoutFields, if_neg outside]
      simp

/-- The slot of a field leaves a course with an outcome if some walk with this outcome remembers
it. -/
theorem Course.mem_ending_iff {course : Course} (ordinary : course.Ordinary) (opened : course.Open) :
    1 ∈ (course.ending config names facts outcome).reaching slot ↔
      course.Recalls names slot (1 ∈ facts.reaching slot) outcome := by
  induction course generalizing facts outcome with
  | free => rw [ending_free, recalls_free]
  | settled fixed =>
      rw [ending_settled, recalls_settled]
      split
      · next same => exact (and_iff_right same).symm
      · next different =>
          rw [Facts.reaching_empty]
          exact iff_of_false (VersionSet.not_mem_empty 1) fun both => different both.1
  | stuck fault =>
      rw [ending_stuck, Facts.reaching_empty]
      exact iff_of_false (VersionSet.not_mem_empty 1) not_recalls_stuck
  | visit place =>
      rw [ending_visit, recalls_visit]
      exact place.mem_transfer_iff versioned negative (ordinary place List.mem_cons_self)
  | chain first rest firstInduction restInduction =>
      have firstIff (middle : Bool) := @firstInduction facts middle
        (fun place member => ordinary place (List.mem_append_left _ member)) opened.1
      rw [ending_chain, recalls_chain opened.2.2, restInduction
        (fun place member => ordinary place (List.mem_append_right _ member)) opened.2.1]
      simp only [Facts.reaching_union, VersionSet.mem_union, firstIff]
  | test condition onTrue onFalse conditionInduction trueInduction falseInduction =>
      rcases opened with ⟨conditionOpen, trueOpen, falseOpen, possible⟩
      have conditionIff (tested : Bool) := @conditionInduction facts tested
        (fun place member => ordinary place (List.mem_append_left _ member)) conditionOpen
      have inArms {place : Visit} (member : place ∈ onTrue.visits ++ onFalse.visits) :=
        ordinary place (List.mem_append_right condition.visits member)
      rw [ending_test, recalls_test possible, Facts.reaching_union, VersionSet.mem_union,
        trueInduction (fun place member => inArms (List.mem_append_left _ member)) trueOpen,
        falseInduction (fun place member => inArms (List.mem_append_right _ member)) falseOpen,
        conditionIff, conditionIff]

end

end SlotVersioning
