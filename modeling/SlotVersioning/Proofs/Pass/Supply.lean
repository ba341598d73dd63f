import Mathlib.Algebra.GroupWithZero.Nat
import SlotVersioning.Proofs.Pass.Extending

/-!
# Where versions come from

With usage versions every version that is stored anywhere is the one version of a variable site, the
version of a field, or the version of a parameter or a caught exception. So the facts stored at one
place list no more versions than the body has sources (`Stocked.length_pairs_le`).
-/

namespace SlotVersioning

open Std

/-! ## Sources -/

/-- Variables and field accesses are the expressions that have versions. -/
def Expr.isSource : Expr → Bool
  | .variable _ | .field .. => true
  | _ => false

namespace Body

/-- The handlers of a statement: its children but the first, when it handles exceptions. -/
def handlersOf (body : Body) (statement : StatementId) : Nat :=
  match (body.statements.get? statement).bind fun stored => stored.kind.handlerSlots? with
  | none => 0
  | some _ => ((body.statements.children statement).drop 1).length

def handlerCount (body : Body) : Nat := (body.statements.preorder.map body.handlersOf).sum

/-- Variable and field expressions, parameters (the receiver included) and handlers. -/
def sourceCount (body : Body) : Nat :=
  body.arena.exprs.toList.countP Expr.isSource + body.signature.arrivalSlots.length +
    body.handlerCount

end Body

/-- The version of a slot belongs to a variable or a field of the arena, or it entered from outside
as one of the given pairs. -/
inductive Supplies (arena : Arena) (entered : List (Slot × Version)) (state : RunState) :
    Slot → Version → Prop
  | site {target : VariableSite} (known : arena.site? target.expression = some target)
      (versioned : state.version target.expression ≠ 0) :
      Supplies arena entered state target.slot (state.version target.expression)
  | field {expression : ExprId} {slot : Slot} {receiver : Option ExprId} {name : String}
      (known : arena.get? expression = some (.field receiver name))
      (given : state.fieldSlot? expression = some slot) : Supplies arena entered state slot 1
  | seed {slot : Slot} {version : Version} (member : (slot, version) ∈ entered) :
      Supplies arena entered state slot version

/-- All versions in the facts are supplied. -/
def Supplied (arena : Arena) (entered : List (Slot × Version)) (state : RunState)
    (facts : Facts) : Prop :=
  ∀ slot, ∀ version ∈ facts.reaching slot, Supplies arena entered state slot version

section Supplies

variable {arena : Arena} {entered : List (Slot × Version)} {state final : RunState}
  {facts other : Facts}

private theorem Supplies.keeps {slot : Slot} {version : Version}
    (supplies : Supplies arena entered state slot version) (keeps : Keeps state final) :
    Supplies arena entered final slot version := by
  cases supplies with
  | @site target known versioned =>
      have kept := keeps.version target.expression versioned
      rw [← kept] at versioned ⊢
      exact .site known versioned
  | field known given => exact .field known (keeps.fieldSlot _ _ given)
  | seed member => exact .seed member

namespace Supplied

theorem keeps (supplied : Supplied arena entered state facts) (keeps : Keeps state final) :
    Supplied arena entered final facts :=
  fun slot version member => (supplied slot version member).keeps keeps

theorem empty : Supplied arena entered state ∅ := by
  intro slot version member
  rw [Facts.reaching_empty] at member
  exact absurd member (VersionSet.not_mem_empty version)

private theorem union (left : Supplied arena entered state facts)
    (right : Supplied arena entered state other) :
    Supplied arena entered state (facts ∪ other) := by
  intro slot version member
  rw [Facts.reaching_union, VersionSet.mem_union] at member
  exact member.elim (left slot version) (right slot version)

private theorem pin (supplied : Supplied arena entered state facts) {slot : Slot}
    {version : Version} (supplies : Supplies arena entered state slot version) :
    Supplied arena entered state (facts.pin slot version) := by
  intro place reaching member
  rw [Facts.reaching_pin] at member
  split at member
  · next here =>
      rw [here, VersionSet.mem_singleton.1 member]
      exact supplies
  · exact supplied place reaching member

theorem withoutFields (supplied : Supplied arena entered state facts) :
    Supplied arena entered state facts.withoutFields := by
  intro slot version member
  rw [Facts.reaching_withoutFields] at member
  split at member
  · exact supplied slot version member
  · exact absurd member (VersionSet.not_mem_empty version)

end Supplied

end Supplies

/-! ## Courses -/

section Courses

variable {arena : Arena} {entered : List (Slot × Version)} {site : Site} {state final : RunState}
  {facts : Facts}

namespace RunM

private theorem act_supplied {place : Visit} {result : Facts}
    (run : place.act site facts state = .ok result final) (inside : place.In arena)
    (usage : site.config.has .usageVersions = true)
    (recorded : site.config.has .fieldVersions = true → state.tables.fields.isSome)
    (supplied : Supplied arena entered state facts) : Supplied arena entered final result := by
  have before := supplied.keeps (act_keeps run usage)
  have pinned {target : VariableSite} (visits : place.site? = some target) :
      Supplied arena entered final result := by
    rw [act_pins run visits]
    exact before.pin (.site (inside.site target visits) (act_stamps run usage visits).ne_zero)
  cases place with
  | read target | define target | assign target value | increment target => exact pinned rfl
  | field expression =>
      rcases inside.field expression rfl with ⟨receiver, name, known⟩
      simp only [Visit.act] at run
      by_cases versioned : site.config.has .fieldVersions = true
      · rw [if_pos versioned] at run
        rcases bind_ok run with ⟨slot, middle, request, run⟩
        rcases pure_ok run with ⟨rfl, rfl⟩
        exact before.pin (.field known (slotOfField_given request (recorded versioned)))
      · rw [if_neg versioned] at run
        rcases pure_ok run with ⟨rfl, rfl⟩
        exact before
  | clobber =>
      rcases pure_ok run with ⟨rfl, rfl⟩
      unfold clobberFields
      split
      · exact before.withoutFields
      · exact before

end RunM

/-- What leaves a course is supplied when what enters it is. -/
private theorem Course.run_supplied {course : Course} {result : Facts × Facts}
    (run : course.run site facts state = .ok result final) (inside : course.VisitsIn arena)
    (usage : site.config.has .usageVersions = true)
    (recorded : site.config.has .fieldVersions = true → state.tables.fields.isSome)
    (supplied : Supplied arena entered state facts) :
    Supplied arena entered final result.1 ∧ Supplied arena entered final result.2 := by
  induction course generalizing facts result state final with
  | free =>
      rcases RunM.pure_ok run with ⟨rfl, rfl⟩
      exact ⟨supplied, supplied⟩
  | settled outcome =>
      cases outcome with
      | true =>
          rcases RunM.pure_ok run with ⟨rfl, rfl⟩
          exact ⟨supplied, .empty⟩
      | false =>
          rcases RunM.pure_ok run with ⟨rfl, rfl⟩
          exact ⟨.empty, supplied⟩
  | stuck fault => cases run
  | visit place =>
      rcases Course.run_visit_ok run with ⟨carried, visited, rfl⟩
      have place := inside place (List.mem_singleton.2 rfl)
      have after := RunM.act_supplied visited place usage recorded supplied
      exact ⟨after, after⟩
  | chain first rest firstInduction restInduction =>
      rcases Course.run_chain_ok run with ⟨between, middle, firstRun, run⟩
      have before := firstInduction firstRun (fun place member =>
        inside place (List.mem_append_left _ member)) recorded supplied
      have recordedThen (versioned) := (run_keeps firstRun usage).recorded (recorded versioned)
      exact restInduction run (fun place member => inside place (List.mem_append_right _ member))
        recordedThen (before.1.union before.2)
  | test condition onTrue onFalse conditionInduction trueInduction falseInduction =>
      rcases Course.run_test_ok run with
        ⟨tested, second, left, third, right, conditionRun, trueRun, falseRun, rfl⟩
      have recordedThen (versioned) := (run_keeps conditionRun usage).recorded (recorded versioned)
      have recordedLast (versioned) := (run_keeps trueRun usage).recorded (recordedThen versioned)
      have tests := conditionInduction conditionRun (fun place member =>
        inside place (List.mem_append_left _ member)) recorded supplied
      have held := trueInduction trueRun (fun place member =>
        inside place (List.mem_append_right _ (List.mem_append_left _ member))) recordedThen tests.1
      have failed := falseInduction falseRun (fun place member =>
        inside place (List.mem_append_right _ (List.mem_append_right _ member))) recordedLast
        (tests.2.keeps (run_keeps trueRun usage))
      have later := run_keeps falseRun usage
      exact ⟨(held.1.keeps later).union failed.1, (held.2.keeps later).union failed.2⟩

end Courses

/-! ## Stored facts -/

/-- All that is stored after nodes or enters from outside is supplied. -/
structure Stocked (arena : Arena) (entered : List (Slot × Version)) (state : RunState) : Prop where
  outFacts : ∀ (name : NodeId) (facts : Facts), state.tables.outFacts[name]? = some facts →
    Supplied arena entered state facts
  negativeFacts : ∀ (name : NodeId) (facts : Facts),
    state.tables.negativeFacts[name]? = some facts → Supplied arena entered state facts
  seeds : ∀ (name : NodeId) (facts : Facts), state.tables.seeds[name]? = some facts →
    Supplied arena entered state facts

namespace Stocked

variable {entered : List (Slot × Version)} {before after state : RunState}

theorem aside {arena : Arena} (stocked : Stocked arena entered before)
    (aside : Aside before after) : Stocked arena entered after := by
  have keeps : Keeps before after := by
    apply Keeps.of_versions
    · intro expression _
      rw [aside.version]
    · exact aside.fields
  refine ⟨?_, ?_, ?_⟩
  · rw [aside.outFacts]
    exact fun name facts stored => (stocked.outFacts name facts stored).keeps keeps
  · rw [aside.negativeFacts]
    exact fun name facts stored => (stocked.negativeFacts name facts stored).keeps keeps
  · rw [aside.seeds]
    exact fun name facts stored => (stocked.seeds name facts stored).keeps keeps

private theorem offered {arena : Arena} (stocked : Stocked arena entered state) {graph : FlowGraph}
    {name : NodeId} {slot : Slot} {version : Version}
    (offers : state.tables.Offers graph name slot version) :
    Supplies arena entered state slot version := by
  have stored {found : Option Facts}
      (each : ∀ facts, found = some facts → Supplied arena entered state facts)
      (member : version ∈ (found.getD ∅).reaching slot) :
      Supplies arena entered state slot version := by
    cases found with
    | none => exact Supplied.empty slot version member
    | some facts => exact each facts rfl slot version member
  rcases offers with ⟨source, -, member⟩ | seeded
  · unfold Tables.brought Tables.edgeFacts? at member
    split at member
    · exact stored (stocked.negativeFacts source) member
    · exact stored (stocked.outFacts source) member
  · exact stored (stocked.seeds name) seeded

theorem crossed {context : Context} {live : Bool} {node : FlowNode} {name : NodeId}
    {facts : Facts} {outcome : OutcomeFacts} {changed : Bool} {middle : RunState}
    (stocked : Stocked context.body.arena entered before)
    (crossed : RunM.Crossed context live node name facts outcome changed before middle after)
    (usage : context.config.has .usageVersions = true)
    (grounded : RunM.Grounded context before) : Stocked context.body.arena entered after := by
  have keeps := crossed.keeps usage
  have arrives : Supplied context.body.arena entered before facts :=
    fun slot version member => stocked.offered (crossed.arrives.offered slot version member)
  have enters : Supplied context.body.arena entered (RunM.entered before name facts) facts :=
    arrives.keeps (.of_versions (fun _ _ => rfl) rfl)
  have carried := Course.run_supplied crossed.run (context.body.visitsIn_course name) usage
    grounded.recorded enters
  have departs {leaving : Facts} (supplied : Supplied context.body.arena entered middle leaving) :
      Supplied context.body.arena entered after (RunM.departing context name leaving) := by
    have later := supplied.keeps crossed.keeps_after
    unfold RunM.departing
    split
    · exact later.withoutFields
    · exact later
  have leaves := RunM.leaving_departing crossed.found outcome
  refine ⟨?_, ?_, ?_⟩
  · intro other stored found
    by_cases here : other = name
    · rw [here, crossed.left.out] at found
      cases found
      rw [leaves.1]
      exact departs carried.1
    · rw [crossed.outFacts_other here] at found
      exact (stocked.outFacts other stored found).keeps keeps
  · intro other stored found
    by_cases here : other = name
    · cases branch : context.graph.negativeBranch? name with
      | none =>
          rw [here, crossed.left.noBranch branch, crossed.negativeFacts_middle,
            grounded.noBranch name branch] at found
          exact nomatch found
      | some target =>
          have isSome : (context.graph.negativeBranch? name).isSome := by
            rw [branch]
            rfl
          rw [here, crossed.onFalse_after usage grounded isSome (.refl after),
            ← crossed.outcome_transferred usage grounded (.refl after)] at found
          cases found
          rw [leaves.2]
          exact departs carried.2
    · rw [crossed.negativeFacts_other here] at found
      exact (stocked.negativeFacts other stored found).keeps keeps
  · intro other stored found
    have seeds : after.tables.seeds = before.tables.seeds := by
      have kept : middle.tables.seeds = before.tables.seeds :=
        congrArg Stores.seeds crossed.frame.stores
      rw [crossed.left.tables, ← kept]
    rw [seeds] at found
    exact (stocked.seeds other stored found).keeps keeps

end Stocked

/-! ## How many versions there are -/

namespace Body

/-- The versions of all variables and fields, and those that entered from outside. -/
def supply (body : Body) (entered : List (Slot × Version)) (state : RunState) :
    List (Slot × Version) :=
  (body.arena.exprs.toList.zipIdx.filterMap fun (expr, expression) =>
    match expr with
    | .variable access => some (access.slot, state.version expression)
    | .field .. => (state.fieldSlot? expression).map (·, 1)
    | _ => none) ++ entered

theorem mem_supply {body : Body} {entered : List (Slot × Version)} {state : RunState}
    {slot : Slot} {version : Version}
    (supplies : Supplies body.arena entered state slot version) :
    (slot, version) ∈ body.supply entered state := by
  have listed {expression : ExprId} {expr : Expr} (known : body.arena.get? expression = some expr) :
      (expr, expression) ∈ body.arena.exprs.toList.zipIdx := by
    rw [List.mem_zipIdx_iff_getElem?, Array.getElem?_toList]
    exact known
  unfold supply
  cases supplies with
  | @site target known versioned =>
      apply List.mem_append_left
      rcases Option.map_eq_some_iff.1 known with ⟨access, stored, same⟩
      rcases Option.bind_eq_some_iff.1 stored with ⟨expr, present, isVariable⟩
      cases expr with
      | «variable» found =>
          cases isVariable
          have slots : access.slot = target.slot := congrArg VariableSite.slot same
          exact List.mem_filterMap.2 ⟨_, listed present, by rw [← slots]⟩
      | _ => exact nomatch isVariable
  | field known given =>
      apply List.mem_append_left
      exact List.mem_filterMap.2 ⟨_, listed known, by simp only [given, Option.map_some]⟩
  | seed member => exact List.mem_append_right _ member

private theorem length_supply_le (body : Body) (entered : List (Slot × Version))
    (state : RunState) :
    (body.supply entered state).length ≤
      body.arena.exprs.toList.countP Expr.isSource + entered.length := by
  unfold supply
  rw [List.length_append]
  apply Nat.add_le_add_right
  generalize body.arena.exprs.toList = exprs
  generalize 0 = first
  induction exprs generalizing first with
  | nil => exact Nat.le_refl _
  | cons head tail induction =>
      have rest := induction (first + 1)
      rw [List.zipIdx_cons, List.filterMap_cons, List.countP_cons]
      cases head with
      | «variable» access => simpa [Expr.isSource] using rest
      | field receiver name =>
          cases given : state.fieldSlot? first with
          | none => simpa [Expr.isSource, given] using Nat.le_succ_of_le rest
          | some slot => simpa [Expr.isSource, given] using rest
      | _ => simpa [Expr.isSource] using rest

end Body

theorem Supplied.length_pairs_le {body : Body} {entered : List (Slot × Version)}
    {state : RunState} {facts : Facts} (supplied : Supplied body.arena entered state facts)
    (few : entered.length ≤ body.signature.arrivalSlots.length + body.handlerCount) :
    facts.pairs.length ≤ body.sourceCount := by
  have subset : facts.pairs ⊆ body.supply entered state := by
    rintro ⟨slot, version⟩ member
    exact Body.mem_supply (supplied slot version (Facts.mem_pairs.1 member))
  have inside := Facts.length_pairs_le_of_subset subset
  have bound := body.length_supply_le entered state
  unfold Body.sourceCount
  omega

/-! ## Seeds -/

/-- At most that many versions entered from outside. -/
def Entered (count : Nat) (state : RunState) : Prop :=
  ∃ entered : List (Slot × Version), entered.length ≤ count ∧
    ∀ (name : NodeId) (facts : Facts), state.tables.seeds[name]? = some facts →
      facts.pairs ⊆ entered

namespace RunM

variable {context : Context} {state final : RunState}

theorem seedVersion_ok {statement : StatementId} {facts result : Facts} {slot : Slot}
    (run : seedVersion context statement facts slot state = .ok result final) :
    final.tables.seeds = state.tables.seeds ∧
      ∃ version, result.pairs ⊆ (slot, version) :: facts.pairs := by
  have quiet := quietly_seedVersion context statement facts slot state result final run
  refine ⟨congrArg Stores.seeds quiet.stores, state.last slot + 1, ?_⟩
  cases run
  rintro ⟨place, version⟩ member
  rw [Facts.mem_pairs, Facts.reaching_pin] at member
  split at member
  · next here =>
      rw [here, VersionSet.mem_singleton.1 member]
      exact List.mem_cons_self
  · exact List.mem_cons_of_mem _ (Facts.mem_pairs.2 member)

theorem storeSeeds_entered {node : NodeId} {facts : Facts} {count more : Nat}
    {fresh : List (Slot × Version)} (few : fresh.length ≤ more) (pairs : facts.pairs ⊆ fresh)
    (before : Entered count state) (run : storeSeeds node facts state = .ok () final) :
    Entered (count + more) final := by
  rcases before with ⟨entered, fewer, inside⟩
  cases run
  refine ⟨entered ++ fresh, ?_, ?_⟩
  · rw [List.length_append]
    exact Nat.add_le_add fewer few
  · intro name stored found
    simp only [ExtTreeMap.getElem?_insert] at found
    split at found
    · cases found
      exact fun pair member => List.mem_append_right _ (pairs member)
    · exact fun pair member => List.mem_append_left _ (inside name stored found member)

private theorem entered_of_parameters {entry : NodeId} {count : Nat} (before : Entered count state)
    (run : seedParameters context entry state = .ok () final) :
    Entered (count + context.body.signature.arrivalSlots.length) final := by
  rcases bind_ok run with ⟨facts, middle, minted, run⟩
  have seeded : middle.tables.seeds = state.tables.seeds ∧
      ∃ fresh : List (Slot × Version),
        fresh.length = 0 + context.body.signature.arrivalSlots.length ∧ facts.pairs ⊆ fresh := by
    refine foldlM_induction (motive := fun index facts reached =>
      reached.tables.seeds = state.tables.seeds ∧
        ∃ fresh : List (Slot × Version), fresh.length = index ∧ facts.pairs ⊆ fresh) 0 ?_ minted
      ⟨rfl, [], rfl, fun _ member => member⟩
    rintro index slot facts next before after - ⟨same, fresh, length, pairs⟩ stepped
    rcases seedVersion_ok stepped with ⟨kept, version, pinned⟩
    refine ⟨kept.trans same, (slot, version) :: fresh, ?_, fun pair member => ?_⟩
    · rw [List.length_cons, length, Nat.zero_add]
    · exact (List.mem_cons.1 (pinned member)).elim (fun here => here ▸ List.mem_cons_self)
        fun there => List.mem_cons_of_mem _ (pairs there)
  rcases seeded with ⟨same, fresh, length, pairs⟩
  refine storeSeeds_entered ?_ pairs ?_ run
  · omega
  · unfold Entered
    rw [same]
    exact before

/-- What every step adds to a count is added by all steps. -/
private theorem forM_counts {α : Type} {action : α → RunM Unit} {list : List α}
    {motive : Nat → RunState → Prop} {weight : α → Nat} {count : Nat}
    (run : list.forM action state = .ok () final)
    (each : ∀ entry count before after, motive count before → action entry before = .ok () after →
      motive (count + weight entry) after)
    (begin : motive count state) : motive (count + (list.map weight).sum) final := by
  have total : list.foldl (fun count entry => count + weight entry) count =
      count + (list.map weight).sum := by
    rw [List.sum_eq_foldl_nat, ← @List.foldl_assoc Nat (· + ·), Nat.add_zero, List.foldl_map]
  exact total ▸ forM_accumulates run each begin

private theorem entered_of_handler {statement : StatementId} {slots : List Slot}
    {handler : StatementId × Nat} {count : Nat} (before : Entered count state)
    (run : seedHandler context statement slots handler state = .ok () final) :
    Entered (count + 1) final := by
  rcases seedHandler_ok run with ⟨slot, entry, facts, middle, -, -, minted, stores⟩
  rcases seedVersion_ok minted with ⟨same, version, pinned⟩
  have single : facts.pairs ⊆ [(slot, version)] := pinned
  have one : [(slot, version)].length ≤ 1 := Nat.le_refl 1
  refine storeSeeds_entered one single ?_ stores
  unfold Entered
  rw [same]
  exact before

private theorem entered_of_handlers {statement : StatementId} {count : Nat}
    (before : Entered count state) (run : seedHandlers context statement state = .ok () final) :
    Entered (count + context.body.handlersOf statement) final := by
  unfold Body.handlersOf
  rcases seedHandlers_ok run with ⟨handles, rfl⟩ | ⟨slots, handles, run⟩
  · simp only [handles]
    exact before
  · simp only [handles]
    have each (handler : StatementId × Nat) (count : Nat) (state final : RunState)
        (before : Entered count state)
        (run : seedHandler context statement slots handler state = .ok () final) :
        Entered (count + (fun _ => 1) handler) final := entered_of_handler before run
    have handlers := forM_counts run each before
    simpa using handlers

/-- Parameters and handlers let one version each enter. -/
theorem entered_of_seeding {entry : NodeId} (empty : state.tables.seeds = ∅)
    (run : seeding context entry state = .ok () final) :
    Entered (context.body.signature.arrivalSlots.length + context.body.handlerCount) final := by
  rcases bind_ok run with ⟨_, middle, parameters, handlers⟩
  have none : Entered 0 state := by
    refine ⟨[], Nat.le_refl 0, fun name facts found => ?_⟩
    rw [empty, ExtTreeMap.getElem?_empty] at found
    exact nomatch found
  have first := entered_of_parameters none parameters
  rw [Nat.zero_add] at first
  exact forM_counts handlers (fun _ _ _ _ before run => entered_of_handlers before run) first

end RunM

end SlotVersioning
