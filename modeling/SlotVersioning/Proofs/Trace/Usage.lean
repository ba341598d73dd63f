import SlotVersioning.Proofs.Trace.Plain

/-!
# Exactness with usage versions

With usage versions every site keeps its version once it has one. So the versions that are stored
before a node are exactly those of the sites and seeds from which a path leads to the node without
another site of the slot (`Versioner.entering_iff`).

That nothing more is stored is an invariant of the run: every stored version is `Justified` by a
path.
-/

namespace SlotVersioning

open Std

/-- The version was written at a site of the slot, and no other site of the slot was visited from
then on. -/
def Lasts (versions : ExprId → Version) (slot : Slot) (version : Version) (visits : List Visit) :
    Prop :=
  ∃ target earlier place later, visits = earlier ++ place :: later ∧
    place.site? = some target ∧ target.slot = slot ∧ versions target.expression = version ∧
    ∀ other ∈ later, ∀ site, other.site? = some site → site.slot = slot →
      site.expression = target.expression

theorem Brings.lasts {versions : ExprId → Version} {slot : Slot} {version : Version}
    {visits : List Visit} (brings : Brings versions slot version visits) :
    Lasts versions slot version visits := by
  rcases brings with ⟨target, earlier, place, later, split, found, same, owns, avoids⟩
  refine ⟨target, earlier, place, later, split, found, same, owns, ?_⟩
  intro other member site visits here
  exact absurd ⟨site, visits, here⟩ (avoids other member)

theorem Brings.congr {versions others : ExprId → Version} {slot : Slot} {version : Version}
    {visits : List Visit} (brings : Brings versions slot version visits)
    (agree : ∀ place ∈ visits, ∀ target, place.site? = some target →
      versions target.expression = others target.expression) :
    Brings others slot version visits := by
  rcases brings with ⟨target, earlier, place, later, rfl, found, same, owns, avoids⟩
  refine ⟨target, earlier, place, later, rfl, found, same, ?_, avoids⟩
  rw [← agree place (List.mem_append_right _ List.mem_cons_self) target found]
  exact owns

/-- A version that lasts is current in the end. -/
private theorem Lasts.current {versions : ExprId → Version} {slot : Slot} {version : Version}
    {visits : List Visit} (lasts : Lasts versions slot version visits) (initial : Current) :
    initial.after versions visits slot = some version := by
  rcases lasts with ⟨target, earlier, place, later, rfl, found, rfl, rfl, alone⟩
  rw [Current.after_append, Current.after_cons]
  have written : place.advance versions (initial.after versions earlier) target.slot =
      some (versions target.expression) := Visit.advance_of_at found
  generalize place.advance versions (initial.after versions earlier) = current at written ⊢
  induction later generalizing current with
  | nil => exact written
  | cons other rest induction =>
      rw [Current.after_cons]
      refine induction (fun another member => alone another (List.mem_cons_of_mem _ member)) _ ?_
      by_cases here : other.At target.slot
      · rcases here with ⟨site, visits, same⟩
        have owner := alone other List.mem_cons_self site visits same
        have advanced : other.advance versions current site.slot =
            some (versions site.expression) := Visit.advance_of_at visits
        rw [same, owner] at advanced
        exact advanced
      · rw [Visit.advance_of_not_at here]
        exact written

/-- A path brings the version to the entry of a node: it entered from outside and its slot was
avoided, or it was written on the way. -/
def Body.Justified (body : Body) (versions : ExprId → Version)
    (seeded : NodeId → Slot → VersionSet) (slot : Slot) (version : Version) (node : NodeId) :
    Prop :=
  ∃ start visits, body.Path start visits node ∧
    (version ∈ seeded start slot ∧ Avoids slot visits ∨
      version ≠ 0 ∧ Brings versions slot version visits)

/-! ## Every stored version is justified -/

/-- Every version of a variable that is stored before a node is justified. -/
def AllJustified (body : Body) (state : RunState) : Prop :=
  ∀ (node : NodeId) (facts : Facts), state.tables.inFacts[node]? = some facts →
    ∀ slot : Slot, 0 ≤ slot → ∀ version ∈ facts.reaching slot,
      body.Justified state.version state.tables.seeded slot version node

theorem Body.Justified.mono {body : Body} {before after : ExprId → Version}
    {seeded : NodeId → Slot → VersionSet} {slot : Slot} {version : Version} {node : NodeId}
    (justified : body.Justified before seeded slot version node)
    (kept : ∀ expression, before expression ≠ 0 → after expression = before expression) :
    body.Justified after seeded slot version node := by
  rcases justified with ⟨start, visits, path, entered | ⟨positive, brought⟩⟩
  · exact ⟨start, visits, path, .inl entered⟩
  · rcases brought with ⟨target, earlier, place, later, split, found, same, rfl, avoids⟩
    exact ⟨start, visits, path, .inr ⟨positive, target, earlier, place, later, split, found, same,
      kept target.expression positive, avoids⟩⟩

theorem Body.open_course {body : Body} {name : NodeId} (unstuck : (body.course name).Unstuck) :
    (body.course name).Open := by
  unfold course at unstuck ⊢
  split at unstuck
  · exact (wellOpen_nodeCourse unstuck).opened
  · exact trivial

namespace RunM

variable {context : Context} {live : Bool} {dirty : DirtyNodes} {node : FlowNode} {name : NodeId}
  {facts : Facts} {log : List (Visit × Facts)} {outcome : OutcomeFacts} {changed : Bool}
  {before middle after : RunState}

/-- What an edge brings is justified at its target. -/
theorem justified_of_brought (regular : context.body.Regular)
    (usage : context.config.has .usageVersions = true) (settling : Settling context dirty before)
    (justified : AllJustified context.body before) {source target : NodeId}
    (edge : source ∈ context.graph.predecessors target) {slot : Slot} (ordinary : 0 ≤ slot)
    {version : Version}
    (brings : version ∈ before.tables.brought context.graph source target slot) :
    context.body.Justified before.version before.tables.seeded slot version target := by
  have forward := (regular.built.linked source target).2 edge
  rcases settling.carry_of_brought ordinary brings with ⟨entered, entering, carries⟩
  have opened := Body.open_course (settling.unstuck source entered entering)
  rcases Course.walk_of_carry opened carries with ⟨more, walk, ⟨reached, avoids⟩ | brought⟩
  · rcases justified source entered entering slot ordinary version reached with
      ⟨start, visits, path, ⟨seed, avoided⟩ | ⟨positive, brought⟩⟩
    · exact ⟨start, visits ++ more, .step path walk forward rfl,
        .inl ⟨seed, avoided.append avoids⟩⟩
    · exact ⟨start, visits ++ more, .step path walk forward rfl,
        .inr ⟨positive, brought.append avoids⟩⟩
  · refine ⟨source, [] ++ more, .step .start walk forward rfl, .inr ⟨?_, brought⟩⟩
    rcases brought with ⟨site, earlier, place, later, rfl, found, -, rfl, -⟩
    have inCourse := walk.visits_mem (List.mem_append_right _ List.mem_cons_self)
    exact settling.versioned regular usage entering (Course.mem_sites_of_visit inCourse found)

theorem invariant_justified (regular : context.body.Regular)
    (usage : context.config.has .usageVersions = true) :
    Invariant context (AllJustified context.body) where
  visit := by
    intro live dirty node name facts log outcome changed before middle after found settling
      justified visited
    have kept (expression : ExprId) (versioned : before.version expression ≠ 0) :
        after.version expression = before.version expression := by
      rw [visited.version_after]
      exact visited.done.performs.kept usage versioned
    unfold AllJustified
    rw [visited.seeded_after]
    refine visited.forall_stored ?_ ?_
    · intro slot ordinary version member
      rcases (visited.joins slot version).1 member with ⟨source, edge, brings⟩ | seed
      · exact (justified_of_brought regular usage settling justified edge ordinary brings).mono kept
      · exact ⟨name, [], .start, .inl ⟨seed, List.forall_mem_nil _⟩⟩
    · intro other stored _ entering slot ordinary version member
      exact (justified other stored entering slot ordinary version member).mono kept
  aside := by
    intro before after justified aside other stored entering slot ordinary version member
    rw [aside.inFacts] at entering
    rw [aside.seeded, aside.version]
    exact justified other stored entering slot ordinary version member

end RunM

/-! ## Results -/

namespace Versioner

variable {versioner : Versioner} {body : Body}

theorem allJustified_of_unvisited {state : RunState} (unvisited : Unvisited state) :
    AllJustified body state :=
  fun _ _ entering => absurd entering unvisited.not_entering

/-- With usage versions, the versions of a variable that are stored before a node are those that a
path brings there from their seed or from their site, without another site of the variable. -/
theorem entering_iff (usage : versioner.config.has .usageVersions = true) (regular : body.Regular)
    (success : (versioner.run body).outcome = .ok ()) {node : NodeId}
    (known : node < body.graph.size) {slot : Slot} (ordinary : 0 ≤ slot) (version : Version) :
    version ∈ (versioner.run body).versioner.tables.entering node slot ↔
      ∃ start visits, body.Path start visits node ∧
        (version ∈ (versioner.run body).versioner.tables.seeded start slot ∧ Avoids slot visits ∨
          Lasts (versioner.run body).version slot version visits) := by
  have fresh : AllJustified body (start versioner.config body) :=
    allJustified_of_unvisited (unvisited_start versioner.config body)
  rcases settled_result regular success (RunM.invariant_justified regular usage) fresh
    (fun _ _ _ unvisited => allJustified_of_unvisited unvisited) with
    ⟨state, settled, justified, leaves⟩
  rcases settled.everywhere node known with ⟨facts, entering⟩
  rw [leaves.tables, Tables.entering_of_stored entering]
  constructor
  · intro member
    rcases justified node facts entering slot ordinary version member with
      ⟨begin, visits, path, entered | ⟨-, brought⟩⟩
    · exact ⟨begin, visits, path, .inl entered⟩
    · have agree := leaves.at_path path
      refine ⟨begin, visits, path, .inr (Brings.lasts (brought.congr ?_))⟩
      exact fun place member target found => (agree place member target found).symm
  · rintro ⟨begin, visits, path, ⟨seed, avoids⟩ | lasts⟩
    · have initially : Course.Within (fun _ => some version) slot
          (state.tables.seeded begin slot) := by
        intro other equal
        cases equal
        exact seed
      apply settled.within_path regular path ordinary initially entering version
      rw [Current.after_of_avoids avoids]
    · have initially : Course.Within (fun _ => none) slot (state.tables.seeded begin slot) :=
        fun other equal => nomatch equal
      apply settled.within_path regular path ordinary initially entering version
      rw [← lasts.current fun _ => none, Current.after_congr (leaves.at_path path)]

theorem success_rereading : (Config.usage.versioner.run .rereading).outcome = .ok () := by
  decide +kernel

/-- The version of the assignment in `rereading` comes back to the read. -/
theorem entering_iff_rereading :
    2 ∈ (Config.usage.versioner.run .rereading).versioner.tables.entering 0 0 ↔
      ∃ start visits, Body.rereading.Path start visits 0 ∧
        (2 ∈ (Config.usage.versioner.run .rereading).versioner.tables.seeded start 0 ∧
            Avoids 0 visits ∨
          Lasts (Config.usage.versioner.run .rereading).version 0 2 visits) :=
  entering_iff (show Config.usage.versioner.config.has _ = true from rfl) Body.regular_rereading
    success_rereading (by decide) (by decide) 2

end Versioner

end SlotVersioning
