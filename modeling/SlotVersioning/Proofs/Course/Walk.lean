import SlotVersioning.Proofs.Course.Basic

/-!
# Walks

A walk is one way through a course: which places are visited, in order, and with which outcome the
course ends. Tests go either way. Along a walk every slot has at most one current version, the one
that was written at the site of the slot that was visited last.
-/

namespace SlotVersioning

/-- The current version of every slot, none before the slot was written. -/
abbrev Current := Slot → Option Version

namespace Visit

/-- The expressions at which a visit writes versions. -/
def written (place : Visit) : List ExprId := place.site?.toList.map VariableSite.expression

theorem mem_written {place : Visit} {expression : ExprId} :
    expression ∈ place.written ↔
      ∃ target, place.site? = some target ∧ target.expression = expression := by
  unfold written
  simp only [List.mem_map, Option.mem_toList]

theorem mem_written_of_site {place : Visit} {target : VariableSite}
    (visits : place.site? = some target) : target.expression ∈ place.written :=
  mem_written.2 ⟨target, visits, rfl⟩

/-- The visit is at a site of the slot. -/
def At (slot : Slot) (place : Visit) : Prop :=
  ∃ target, place.site? = some target ∧ target.slot = slot

/-- The current versions after a visit, when the given versions are written. -/
def advance (versions : ExprId → Version) (current : Current) (place : Visit) : Current :=
  match place.site? with
  | some target => fun slot =>
      if target.slot = slot then some (versions target.expression) else current slot
  | none => current

theorem advance_of_not_at {versions : ExprId → Version} {current : Current} {place : Visit}
    {slot : Slot} (elsewhere : ¬ place.At slot) :
    place.advance versions current slot = current slot := by
  unfold advance
  cases found : place.site? with
  | none => rfl
  | some target => exact if_neg fun equal => elsewhere ⟨target, found, equal⟩

theorem advance_of_at {versions : ExprId → Version} {current : Current} {place : Visit}
    {target : VariableSite} (found : place.site? = some target) :
    place.advance versions current target.slot = some (versions target.expression) := by
  unfold advance
  rw [found]
  exact if_pos rfl

end Visit

/-- No visit is at a site of the slot. -/
def Avoids (slot : Slot) (visits : List Visit) : Prop := ∀ place ∈ visits, ¬ place.At slot

/-- The version was written at a site of the slot, and the slot was avoided from then on. -/
def Brings (versions : ExprId → Version) (slot : Slot) (version : Version)
    (visits : List Visit) : Prop :=
  ∃ target earlier place later, visits = earlier ++ place :: later ∧
    place.site? = some target ∧ target.slot = slot ∧ versions target.expression = version ∧
    Avoids slot later

theorem Avoids.append {slot : Slot} {left right : List Visit} (before : Avoids slot left)
    (after : Avoids slot right) : Avoids slot (left ++ right) :=
  List.forall_mem_append.2 ⟨before, after⟩

theorem Brings.append {versions : ExprId → Version} {slot : Slot} {version : Version}
    {left right : List Visit}
    (brought : Brings versions slot version left) (avoids : Avoids slot right) :
    Brings versions slot version (left ++ right) := by
  rcases brought with ⟨target, earlier, place, later, rfl, found, same, owns, spared⟩
  exact ⟨target, earlier, place, later ++ right, by simp, found, same, owns,
    spared.append avoids⟩

theorem Brings.prepend {versions : ExprId → Version} {slot : Slot} {version : Version}
    {right : List Visit}
    (brought : Brings versions slot version right) (left : List Visit) :
    Brings versions slot version (left ++ right) := by
  rcases brought with ⟨target, earlier, place, later, rfl, found, same, owns, spared⟩
  exact ⟨target, left ++ earlier, place, later, by simp, found, same, owns, spared⟩

/-- The current versions after visits in order. -/
def Current.after (versions : ExprId → Version) (current : Current) (visits : List Visit) :
    Current :=
  visits.foldl (fun current place => place.advance versions current) current

namespace Current

variable {versions : ExprId → Version} {current : Current}

@[simp] theorem after_cons (place : Visit) (visits : List Visit) :
    current.after versions (place :: visits) =
      (place.advance versions current).after versions visits := rfl

@[simp] theorem after_append (left right : List Visit) :
    current.after versions (left ++ right) =
      (current.after versions left).after versions right :=
  List.foldl_append

theorem after_of_avoids {slot : Slot} {visits : List Visit} (avoids : Avoids slot visits) :
    current.after versions visits slot = current slot := by
  induction visits generalizing current with
  | nil => rfl
  | cons place rest induction =>
      rw [after_cons, induction fun other member => avoids other (List.mem_cons_of_mem _ member)]
      exact Visit.advance_of_not_at (avoids place List.mem_cons_self)

end Current

namespace Course

/-- Every visit of a course, in the order in which they are run. -/
def visits : Course → List Visit
  | free | settled _ | stuck _ => []
  | visit place => [place]
  | chain first rest => first.visits ++ rest.visits
  | test condition onTrue onFalse => condition.visits ++ (onTrue.visits ++ onFalse.visits)

/-- The expressions at which a course writes versions. -/
def sites (course : Course) : List ExprId := course.visits.flatMap Visit.written

theorem mem_sites {course : Course} {expression : ExprId} :
    expression ∈ course.sites ↔ ∃ place ∈ course.visits, ∃ target,
      place.site? = some target ∧ target.expression = expression := by
  unfold sites
  simp only [List.mem_flatMap, Visit.mem_written]

theorem mem_sites_of_visit {course : Course} {place : Visit} {target : VariableSite}
    (member : place ∈ course.visits) (visits : place.site? = some target) :
    target.expression ∈ course.sites :=
  mem_sites.2 ⟨place, member, target, visits, rfl⟩

/-- The ways through a course, with the places visited and the outcome. -/
inductive Walk : Course → List Visit → Bool → Prop
  | free (outcome : Bool) : Walk .free [] outcome
  | settled (outcome : Bool) : Walk (.settled outcome) [] outcome
  | visit (place : Visit) (outcome : Bool) : Walk (.visit place) [place] outcome
  | chain {first rest : Course} {left right : List Visit} {middle outcome : Bool}
      (before : Walk first left middle) (after : Walk rest right outcome) :
      Walk (.chain first rest) (left ++ right) outcome
  | onTrue {condition onTrue onFalse : Course} {left right : List Visit} {outcome : Bool}
      (held : Walk condition left true) (after : Walk onTrue right outcome) :
      Walk (.test condition onTrue onFalse) (left ++ right) outcome
  | onFalse {condition onTrue onFalse : Course} {left right : List Visit} {outcome : Bool}
      (failed : Walk condition left false) (after : Walk onFalse right outcome) :
      Walk (.test condition onTrue onFalse) (left ++ right) outcome

theorem Walk.visits_mem {course : Course} {visits : List Visit} {outcome : Bool}
    (walk : course.Walk visits outcome) {place : Visit} (member : place ∈ visits) :
    place ∈ course.visits := by
  induction walk with
  | free | settled => exact nomatch member
  | visit => exact member
  | chain before after beforeInduction afterInduction =>
      rw [Course.visits, List.mem_append]
      exact (List.mem_append.1 member).imp beforeInduction afterInduction
  | onTrue held after heldInduction afterInduction =>
      rw [Course.visits, List.mem_append, List.mem_append]
      exact (List.mem_append.1 member).imp heldInduction fun later => .inl (afterInduction later)
  | onFalse failed after failedInduction afterInduction =>
      rw [Course.visits, List.mem_append, List.mem_append]
      exact (List.mem_append.1 member).imp failedInduction fun later =>
        .inr (afterInduction later)

end Course

end SlotVersioning
