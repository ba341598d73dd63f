import SlotVersioning.Proofs.Course.Open

/-!
# What courses carry

The versions of one slot that leave a course, computed from those that enter it and from the
versions that are written at its sites. `arrivals` are the versions that reach each visit.

What is computed is what the walks bring: whatever is current along a walk is among the versions
computed (`current_of_walk`, `arrival_of_walk`), and whatever is computed was brought by a walk
(`Course.walk_of_carry`).
-/

namespace SlotVersioning

/-- What reaches a slot after a visit, when the given versions are written. -/
def Visit.carry (versions : ExprId → Version) (slot : Slot) (place : Visit)
    (reaching : VersionSet) : VersionSet :=
  match place.site? with
  | some target => if target.slot = slot then {versions target.expression} else reaching
  | none => reaching

namespace Course

/-- What reaches a slot where a course ends with the outcome. -/
def carry (versions : ExprId → Version) (slot : Slot) : Course → VersionSet → Bool → VersionSet
  | free, reaching, _ => reaching
  | settled outcome, reaching, wanted => if outcome = wanted then reaching else ∅
  | stuck _, _, _ => ∅
  | visit place, reaching, _ => place.carry versions slot reaching
  | chain first rest, reaching, wanted =>
      rest.carry versions slot
        (first.carry versions slot reaching true ∪ first.carry versions slot reaching false) wanted
  | test condition onTrue onFalse, reaching, wanted =>
      onTrue.carry versions slot (condition.carry versions slot reaching true) wanted ∪
        onFalse.carry versions slot (condition.carry versions slot reaching false) wanted

/-- Every visit of a course with what reaches the slot before it. -/
def arrivals (versions : ExprId → Version) (slot : Slot) :
    Course → VersionSet → List (Visit × VersionSet)
  | free, _ | settled _, _ | stuck _, _ => []
  | visit place, reaching => [(place, reaching)]
  | chain first rest, reaching =>
      first.arrivals versions slot reaching ++
        rest.arrivals versions slot
          (first.carry versions slot reaching true ∪ first.carry versions slot reaching false)
  | test condition onTrue onFalse, reaching =>
      condition.arrivals versions slot reaching ++
        (onTrue.arrivals versions slot (condition.carry versions slot reaching true) ++
          onFalse.arrivals versions slot (condition.carry versions slot reaching false))

variable {versions others : ExprId → Version} {slot : Slot}

theorem arrivals_fst (course : Course) (reaching : VersionSet) :
    (course.arrivals versions slot reaching).map Prod.fst = course.visits := by
  induction course generalizing reaching with
  | free | settled | stuck | visit => rfl
  | chain first rest firstInduction restInduction =>
      rw [arrivals, List.map_append, firstInduction, restInduction, visits]
  | test condition onTrue onFalse conditionInduction trueInduction falseInduction =>
      rw [arrivals, List.map_append, List.map_append, conditionInduction, trueInduction,
        falseInduction, visits]

theorem mem_visits_of_arrival {course : Course} {reaching : VersionSet}
    {arrival : Visit × VersionSet} (member : arrival ∈ course.arrivals versions slot reaching) :
    arrival.1 ∈ course.visits :=
  course.arrivals_fst reaching ▸ List.mem_map_of_mem member

theorem exists_arrival {course : Course} {place : Visit} (member : place ∈ course.visits)
    (reaching : VersionSet) :
    ∃ arriving, (place, arriving) ∈ course.arrivals versions slot reaching := by
  rw [← course.arrivals_fst reaching] at member
  rcases List.mem_map.1 member with ⟨⟨_, arriving⟩, arrives, rfl⟩
  exact ⟨arriving, arrives⟩

/-! ## Only the sites matter -/

theorem sites_settled (outcome : Bool) : (settled outcome).sites = [] := rfl

theorem sites_chain (first rest : Course) :
    (chain first rest).sites = first.sites ++ rest.sites := List.flatMap_append

theorem sites_test (condition onTrue onFalse : Course) :
    (test condition onTrue onFalse).sites =
      condition.sites ++ (onTrue.sites ++ onFalse.sites) := by
  simp only [sites, visits, List.flatMap_append]

theorem carry_congr {course : Course}
    (agree : ∀ expression ∈ course.sites, versions expression = others expression)
    (reaching : VersionSet) (outcome : Bool) :
    course.carry versions slot reaching outcome = course.carry others slot reaching outcome := by
  induction course generalizing reaching outcome with
  | free | settled | stuck => rfl
  | visit place =>
      unfold carry Visit.carry
      cases found : place.site? with
      | none => rfl
      | some target =>
          dsimp only
          rw [agree target.expression (mem_sites_of_visit List.mem_cons_self found)]
  | chain first rest firstInduction restInduction =>
      rw [sites_chain, List.forall_mem_append] at agree
      rw [carry, carry, firstInduction agree.1, firstInduction agree.1, restInduction agree.2]
  | test condition onTrue onFalse conditionInduction trueInduction falseInduction =>
      rw [sites_test, List.forall_mem_append, List.forall_mem_append] at agree
      rw [carry, carry, conditionInduction agree.1, conditionInduction agree.1,
        trueInduction agree.2.1, falseInduction agree.2.2]

theorem arrivals_congr {course : Course}
    (agree : ∀ expression ∈ course.sites, versions expression = others expression)
    (reaching : VersionSet) :
    course.arrivals versions slot reaching = course.arrivals others slot reaching := by
  induction course generalizing reaching with
  | free | settled | stuck | visit => rfl
  | chain first rest firstInduction restInduction =>
      rw [sites_chain, List.forall_mem_append] at agree
      rw [arrivals, arrivals, firstInduction agree.1, carry_congr agree.1, carry_congr agree.1,
        restInduction agree.2]
  | test condition onTrue onFalse conditionInduction trueInduction falseInduction =>
      rw [sites_test, List.forall_mem_append, List.forall_mem_append] at agree
      rw [arrivals, arrivals, conditionInduction agree.1, carry_congr agree.1,
        carry_congr agree.1, trueInduction agree.2.1, falseInduction agree.2.2]

/-! ## Walks stay within what is computed -/

/-- What is current at the slot is one of the versions. -/
def Within (current : Current) (slot : Slot) (reaching : VersionSet) : Prop :=
  ∀ version, current slot = some version → version ∈ reaching

theorem Within.mono {current : Current} {fewer more : VersionSet}
    (within : Within current slot fewer) (subset : ∀ version ∈ fewer, version ∈ more) :
    Within current slot more :=
  fun version found => subset version (within version found)

/-- Whatever the outcome, what leaves a course is in the union of both. -/
theorem within_union {current : Current} {first : Course} {reaching : VersionSet} {outcome : Bool}
    (within : Within current slot (first.carry versions slot reaching outcome)) :
    Within current slot
      (first.carry versions slot reaching true ∪ first.carry versions slot reaching false) := by
  refine within.mono fun version member => VersionSet.mem_union.2 ?_
  cases outcome with
  | true => exact .inl member
  | false => exact .inr member

private theorem within_visit {current : Current} {reaching : VersionSet} {place : Visit}
    (within : Within current slot reaching) :
    Within (place.advance versions current) slot (place.carry versions slot reaching) := by
  unfold Visit.carry Visit.advance
  cases found : place.site? with
  | none => exact within
  | some target =>
      intro version equal
      dsimp only at equal ⊢
      split at equal
      · next same =>
          cases equal
          rw [if_pos same]
          exact VersionSet.mem_singleton.2 rfl
      · next different =>
          rw [if_neg different]
          exact within version equal

/-- Whatever is current after a walk is among the versions that leave the course. -/
theorem current_of_walk {course : Course} {places : List Visit} {outcome : Bool}
    (walk : course.Walk places outcome) {current : Current} {reaching : VersionSet}
    (within : Within current slot reaching) :
    Within (current.after versions places) slot (course.carry versions slot reaching outcome) := by
  induction walk generalizing current reaching with
  | free => exact within
  | settled outcome =>
      rw [carry, if_pos rfl]
      exact within
  | visit place => exact within_visit within
  | chain before after beforeInduction afterInduction =>
      rw [Current.after_append, carry]
      exact afterInduction (within_union (beforeInduction within))
  | onTrue held after heldInduction afterInduction =>
      rw [Current.after_append, carry]
      exact (afterInduction (heldInduction within)).mono fun version member =>
        VersionSet.mem_union.2 (.inl member)
  | onFalse failed after failedInduction afterInduction =>
      rw [Current.after_append, carry]
      exact (afterInduction (failedInduction within)).mono fun version member =>
        VersionSet.mem_union.2 (.inr member)

/-- An entry of two lists in a row is an entry of one of them. -/
theorem cases_of_append {α : Type} {left right earlier later : List α} {place : α}
    (split : left ++ right = earlier ++ place :: later) :
    (∃ rest, left = earlier ++ place :: rest) ∨
      ∃ between, earlier = left ++ between ∧ right = between ++ place :: later := by
  rcases List.append_eq_append_iff.1 split with ⟨between, rfl, rfl⟩ | ⟨between, rfl, tail⟩
  · exact .inr ⟨between, rfl, rfl⟩
  · cases between with
    | nil => exact .inr ⟨[], by simp, tail.symm⟩
    | cons head rest =>
        rcases List.cons.inj tail with ⟨rfl, -⟩
        exact .inl ⟨rest, rfl⟩

/-- Whatever is current before a visit of a walk is among the versions that reach it. -/
theorem arrival_of_walk {course : Course} {places : List Visit} {outcome : Bool}
    (walk : course.Walk places outcome) {current : Current} {reaching : VersionSet}
    (within : Within current slot reaching) {earlier later : List Visit} {place : Visit}
    (split : places = earlier ++ place :: later) :
    ∃ arriving, (place, arriving) ∈ course.arrivals versions slot reaching ∧
      Within (current.after versions earlier) slot arriving := by
  induction walk generalizing current reaching earlier later with
  | free | settled => simp at split
  | visit visited =>
      obtain ⟨rfl, rfl, rfl⟩ : earlier = [] ∧ visited = place ∧ later = [] := by
        cases earlier with
        | nil => simpa [eq_comm] using split
        | cons head rest => simp at split
      exact ⟨reaching, List.mem_singleton.2 rfl, within⟩
  | chain before after beforeInduction afterInduction =>
      rw [arrivals]
      rcases cases_of_append split with ⟨rest, early⟩ | ⟨between, rfl, late⟩
      · rcases beforeInduction within early with ⟨arriving, member, found⟩
        exact ⟨arriving, List.mem_append_left _ member, found⟩
      · rcases afterInduction (within_union (current_of_walk before within)) late with
          ⟨arriving, member, found⟩
        rw [Current.after_append]
        exact ⟨arriving, List.mem_append_right _ member, found⟩
  | onTrue held after heldInduction afterInduction =>
      rw [arrivals]
      rcases cases_of_append split with ⟨rest, early⟩ | ⟨between, rfl, late⟩
      · rcases heldInduction within early with ⟨arriving, member, found⟩
        exact ⟨arriving, List.mem_append_left _ member, found⟩
      · rcases afterInduction (current_of_walk held within) late with
          ⟨arriving, member, found⟩
        rw [Current.after_append]
        exact ⟨arriving, List.mem_append_right _ (List.mem_append_left _ member), found⟩
  | onFalse failed after failedInduction afterInduction =>
      rw [arrivals]
      rcases cases_of_append split with ⟨rest, early⟩ | ⟨between, rfl, late⟩
      · rcases failedInduction within early with ⟨arriving, member, found⟩
        exact ⟨arriving, List.mem_append_left _ member, found⟩
      · rcases afterInduction (current_of_walk failed within) late with
          ⟨arriving, member, found⟩
        rw [Current.after_append]
        exact ⟨arriving, List.mem_append_right _ (List.mem_append_right _ member), found⟩

/-! ## What is computed was brought by a walk -/

/-- A walk by which a version leaves the course: it entered and its slot was avoided, or it was
brought on the way. -/
def Delivers (versions : ExprId → Version) (slot : Slot) (course : Course)
    (reaching : VersionSet) (version : Version) (outcome : Bool) : Prop :=
  ∃ places, course.Walk places outcome ∧
    (version ∈ reaching ∧ Avoids slot places ∨ Brings versions slot version places)

private theorem Delivers.through {first : Course} {whole : Course} {reaching : VersionSet}
    {version : Version} {middle outcome : Bool} {right : List Visit}
    (delivered : Delivers versions slot first reaching version middle)
    (avoids : Avoids slot right)
    (walk : ∀ left, first.Walk left middle → whole.Walk (left ++ right) outcome) :
    Delivers versions slot whole reaching version outcome := by
  rcases delivered with ⟨left, before, ⟨entered, avoided⟩ | brought⟩
  · exact ⟨left ++ right, walk left before, .inl ⟨entered, avoided.append avoids⟩⟩
  · exact ⟨left ++ right, walk left before, .inr (brought.append avoids)⟩

/-- Whatever leaves a course was delivered by a walk. -/
theorem walk_of_carry {course : Course} (opened : course.Open) {reaching : VersionSet}
    {version : Version} {outcome : Bool}
    (member : version ∈ course.carry versions slot reaching outcome) :
    Delivers versions slot course reaching version outcome := by
  induction course generalizing reaching version outcome with
  | free => exact ⟨[], .free outcome, .inl ⟨member, List.forall_mem_nil _⟩⟩
  | settled fixed =>
      rw [carry] at member
      split at member
      · next same =>
          subst same
          exact ⟨[], .settled fixed, .inl ⟨member, List.forall_mem_nil _⟩⟩
      · exact absurd member (VersionSet.not_mem_empty _)
  | stuck fault => exact absurd member (VersionSet.not_mem_empty _)
  | visit place =>
      refine ⟨[place], .visit place outcome, ?_⟩
      unfold carry Visit.carry at member
      cases found : place.site? with
      | none =>
          rw [found] at member
          refine .inl ⟨member, List.forall_mem_singleton.2 ?_⟩
          rintro ⟨target, present, -⟩
          rw [found] at present
          cases present
      | some target =>
          rw [found] at member
          dsimp only at member
          split at member
          · next same =>
              exact .inr ⟨target, [], place, [], rfl, found, same,
                (VersionSet.mem_singleton.1 member).symm, List.forall_mem_nil _⟩
          · next different =>
              refine .inl ⟨member, List.forall_mem_singleton.2 ?_⟩
              rintro ⟨other, present, same⟩
              rw [found] at present
              cases present
              exact different same
  | chain first rest firstInduction restInduction =>
      rcases restInduction opened.2.1 member with ⟨right, after, ⟨entered, avoided⟩ | brought⟩
      · rcases VersionSet.mem_union.1 entered with left | left
        · exact (firstInduction opened.1 left).through avoided fun _ before => .chain before after
        · exact (firstInduction opened.1 left).through avoided fun _ before => .chain before after
      · rcases opened.2.2 with ⟨middle, left, before⟩
        exact ⟨left ++ right, .chain before after, .inr (brought.prepend left)⟩
  | test condition onTrue onFalse conditionInduction trueInduction falseInduction =>
      rcases opened with ⟨conditionOpen, trueOpen, falseOpen, possible⟩
      rcases VersionSet.mem_union.1 member with left | left
      · rcases trueInduction trueOpen left with ⟨right, after, ⟨entered, avoided⟩ | brought⟩
        · exact (conditionInduction conditionOpen entered).through avoided fun _ held =>
            .onTrue held after
        · rcases possible true with ⟨before, held⟩
          exact ⟨before ++ right, .onTrue held after, .inr (brought.prepend before)⟩
      · rcases falseInduction falseOpen left with ⟨right, after, ⟨entered, avoided⟩ | brought⟩
        · exact (conditionInduction conditionOpen entered).through avoided fun _ failed =>
            .onFalse failed after
        · rcases possible false with ⟨before, failed⟩
          exact ⟨before ++ right, .onFalse failed after, .inr (brought.prepend before)⟩

end Course

end SlotVersioning
