import SlotVersioning.Proofs.Course.Carry

/-!
# Courses entered by more versions

The more versions enter a course, the more reach its visits and leave it (`carry_mono`,
`arrivals_mono`). Whatever reaches a visit entered the course or was written by an earlier visit
(`written_of_arrival`).
-/

namespace SlotVersioning

namespace Course

variable {versions : ExprId → Version} {slot : Slot} {fewer more : VersionSet}

theorem carry_mono (course : Course) (subset : ∀ version ∈ fewer, version ∈ more)
    (outcome : Bool) :
    ∀ version ∈ course.carry versions slot fewer outcome,
      version ∈ course.carry versions slot more outcome := by
  induction course generalizing fewer more outcome with
  | free => exact subset
  | settled fixed =>
      unfold carry
      split
      · exact subset
      · exact fun _ member => member
  | stuck => exact fun _ member => member
  | visit place =>
      unfold carry Visit.carry
      split
      · split
        · exact fun _ member => member
        · exact subset
      · exact subset
  | chain first rest firstInduction restInduction =>
      refine restInduction (fun version member => ?_) outcome
      exact VersionSet.mem_union.2 ((VersionSet.mem_union.1 member).imp
        (firstInduction subset true version) (firstInduction subset false version))
  | test condition onTrue onFalse conditionInduction trueInduction falseInduction =>
      intro version member
      exact VersionSet.mem_union.2 ((VersionSet.mem_union.1 member).imp
        (trueInduction (conditionInduction subset true) outcome version)
        (falseInduction (conditionInduction subset false) outcome version))

private theorem carry_union_mono {course : Course} (subset : ∀ version ∈ fewer, version ∈ more) :
    ∀ version ∈ course.carry versions slot fewer true ∪ course.carry versions slot fewer false,
      version ∈ course.carry versions slot more true ∪ course.carry versions slot more false :=
  fun version member => VersionSet.mem_union.2 ((VersionSet.mem_union.1 member).imp
    (course.carry_mono subset true version) (course.carry_mono subset false version))

/-- A visit is reached by no less when more enters the course. -/
theorem arrivals_mono {course : Course} (subset : ∀ version ∈ fewer, version ∈ more)
    {place : Visit} {reaching : VersionSet}
    (member : (place, reaching) ∈ course.arrivals versions slot more) :
    ∃ earlier, (place, earlier) ∈ course.arrivals versions slot fewer ∧
      ∀ version ∈ earlier, version ∈ reaching := by
  induction course generalizing fewer more with
  | free | settled | stuck => exact nomatch member
  | visit visited =>
      cases List.mem_singleton.1 member
      exact ⟨fewer, List.mem_singleton.2 rfl, subset⟩
  | chain first rest firstInduction restInduction =>
      rcases List.mem_append.1 member with early | late
      · rcases firstInduction subset early with ⟨earlier, found, fewerReach⟩
        exact ⟨earlier, List.mem_append_left _ found, fewerReach⟩
      · rcases restInduction (carry_union_mono subset) late with ⟨earlier, found, fewerReach⟩
        exact ⟨earlier, List.mem_append_right _ found, fewerReach⟩
  | test condition onTrue onFalse conditionInduction trueInduction falseInduction =>
      rcases List.mem_append.1 member with early | late
      · rcases conditionInduction subset early with ⟨earlier, found, fewerReach⟩
        exact ⟨earlier, List.mem_append_left _ found, fewerReach⟩
      rcases List.mem_append.1 late with held | failed
      · rcases trueInduction (condition.carry_mono subset true) held with
          ⟨earlier, found, fewerReach⟩
        exact ⟨earlier, List.mem_append_right _ (List.mem_append_left _ found), fewerReach⟩
      · rcases falseInduction (condition.carry_mono subset false) failed with
          ⟨earlier, found, fewerReach⟩
        exact ⟨earlier, List.mem_append_right _ (List.mem_append_right _ found), fewerReach⟩

/-! ## Where versions come from -/

/-- The version is written at a site of the slot by one of the visits. -/
def Writes (versions : ExprId → Version) (slot : Slot) (version : Version)
    (visits : List Visit) : Prop :=
  ∃ place ∈ visits, ∃ target, place.site? = some target ∧ target.slot = slot ∧
    versions target.expression = version

theorem Writes.mono {version : Version} {visits others : List Visit}
    (writes : Writes versions slot version visits) (subset : ∀ place ∈ visits, place ∈ others) :
    Writes versions slot version others := by
  rcases writes with ⟨place, member, written⟩
  exact ⟨place, subset place member, written⟩

/-- What is current in the end was current from the beginning or is written on the way. -/
theorem written_of_after {initial : Current} {version : Version} {visits : List Visit}
    (current : initial.after versions visits slot = some version) :
    initial slot = some version ∨ Writes versions slot version visits := by
  induction visits generalizing initial with
  | nil => exact .inl current
  | cons place rest induction =>
      rw [Current.after_cons] at current
      rcases induction current with entered | writes
      · by_cases here : place.At slot
        · rcases here with ⟨target, visits, rfl⟩
          rw [Visit.advance_of_at visits] at entered
          cases entered
          exact .inr ⟨place, List.mem_cons_self, target, visits, rfl, rfl⟩
        · rw [Visit.advance_of_not_at here] at entered
          exact .inl entered
      · exact .inr (writes.mono fun _ member => List.mem_cons_of_mem _ member)

/-- What leaves a course entered it or is written in it. -/
theorem written_of_carry {course : Course} {reaching : VersionSet} {outcome : Bool}
    {version : Version} (member : version ∈ course.carry versions slot reaching outcome) :
    version ∈ reaching ∨ Writes versions slot version course.visits := by
  induction course generalizing reaching outcome with
  | free => exact .inl member
  | settled fixed =>
      unfold carry at member
      split at member
      · exact .inl member
      · exact absurd member (VersionSet.not_mem_empty version)
  | stuck => exact absurd member (VersionSet.not_mem_empty version)
  | visit place =>
      unfold carry Visit.carry at member
      split at member
      · next target visits =>
          split at member
          · next same =>
              refine .inr ⟨place, List.mem_singleton.2 rfl, target, visits, same, ?_⟩
              exact (VersionSet.mem_singleton.1 member).symm
          · exact .inl member
      · exact .inl member
  | chain first rest firstInduction restInduction =>
      have early {outcome : Bool}
          (member : version ∈ first.carry versions slot reaching outcome) :
          version ∈ reaching ∨ Writes versions slot version (chain first rest).visits :=
        (firstInduction member).imp_right fun writes => writes.mono fun _ inside =>
          List.mem_append_left _ inside
      rcases restInduction member with entered | writes
      · exact (VersionSet.mem_union.1 entered).elim early early
      · exact .inr (writes.mono fun _ inside => List.mem_append_right _ inside)
  | test condition onTrue onFalse conditionInduction trueInduction falseInduction =>
      have early {outcome : Bool}
          (member : version ∈ condition.carry versions slot reaching outcome) :
          version ∈ reaching ∨
            Writes versions slot version (test condition onTrue onFalse).visits :=
        (conditionInduction member).imp_right fun writes => writes.mono fun _ inside =>
          List.mem_append_left _ inside
      rcases VersionSet.mem_union.1 member with held | failed
      · rcases trueInduction held with entered | writes
        · exact early entered
        · exact .inr (writes.mono fun _ inside =>
            List.mem_append_right _ (List.mem_append_left _ inside))
      · rcases falseInduction failed with entered | writes
        · exact early entered
        · exact .inr (writes.mono fun _ inside =>
            List.mem_append_right _ (List.mem_append_right _ inside))

/-- What leaves the first of two parts entered it or is written by one of its visits. -/
private theorem written_of_first {first : Course} {reaching : VersionSet} {outcome : Bool}
    {version : Version} (member : version ∈ first.carry versions slot reaching outcome)
    (between : List (Visit × VersionSet)) :
    version ∈ reaching ∨ Writes versions slot version
      ((first.arrivals versions slot reaching ++ between).map Prod.fst) := by
  rw [List.map_append, arrivals_fst]
  exact (written_of_carry member).imp_right fun writes => writes.mono fun _ inside =>
    List.mem_append_left _ inside

theorem Writes.prepend {version : Version} {between : List (Visit × VersionSet)}
    (writes : Writes versions slot version (between.map Prod.fst))
    (left : List (Visit × VersionSet)) :
    Writes versions slot version ((left ++ between).map Prod.fst) := by
  rw [List.map_append]
  exact writes.mono fun _ inside => List.mem_append_right _ inside

/-- What reaches a visit entered the course or is written by an earlier visit. -/
theorem written_of_arrival {course : Course} {reaching arriving : VersionSet} {place : Visit}
    {earlier later : List (Visit × VersionSet)}
    (split : course.arrivals versions slot reaching = earlier ++ (place, arriving) :: later)
    {version : Version} (member : version ∈ arriving) :
    version ∈ reaching ∨ Writes versions slot version (earlier.map Prod.fst) := by
  induction course generalizing reaching earlier later with
  | free | settled | stuck => simp [arrivals] at split
  | visit visited =>
      cases earlier with
      | nil =>
          cases split
          exact .inl member
      | cons head tail => simp [arrivals] at split
  | chain first rest firstInduction restInduction =>
      rcases cases_of_append split with ⟨between, early⟩ | ⟨between, rfl, late⟩
      · exact firstInduction early
      · rcases restInduction late with entered | writes
        · exact (VersionSet.mem_union.1 entered).elim (written_of_first · between)
            (written_of_first · between)
        · exact .inr (writes.prepend _)
  | test condition onTrue onFalse conditionInduction trueInduction falseInduction =>
      rcases cases_of_append split with ⟨between, early⟩ | ⟨between, rfl, late⟩
      · exact conditionInduction early
      rcases cases_of_append late with ⟨rest, held⟩ | ⟨rest, rfl, failed⟩
      · rcases trueInduction held with entered | writes
        · exact written_of_first entered between
        · exact .inr (writes.prepend _)
      · rcases falseInduction failed with entered | writes
        · exact written_of_first entered _
        · exact .inr ((writes.prepend _).prepend _)

end Course

end SlotVersioning
