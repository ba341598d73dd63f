import Mathlib.Tactic.Tauto
import SlotVersioning.Facts.Lemmas
import SlotVersioning.Proofs.Pass.Crossing

/-!
# What the paths of an exit bring

A path of an exit brings the facts that are stored on the edge it was entered over, or what that
edge lets through when it leaves an exit itself (`sourceFacts`). The paths are gone through one
after the other (`PathFacts.add`), but what is gathered depends on neither their order nor their
number: it is the union over the paths that lead to the node, and one set of facts for each path
that leads elsewhere (`mem_leading_gather`, `mem_elsewhere_gather`).
-/

namespace SlotVersioning

namespace FlowGraph

/-- The path leads to the node when facts are wanted at the destination: a path out of another exit
says so itself, and any other has a long-range path from its source to the destination. -/
def Matching (graph : FlowGraph) (exit node destination : NodeId) (path : FinallyPath) : Prop :=
  if (graph.shortPaths? path.source).isSome then
    path.destination = node
  else
    ∃ long ∈ graph.longPathsOf exit, long.destination = destination ∧ long.source = path.source

end FlowGraph

namespace Tables

theorem leadsElsewhere_eq_false_iff {graph : FlowGraph} {exit node destination : NodeId}
    {path : FinallyPath} :
    leadsElsewhere graph exit node destination path = false ↔
      graph.Matching exit node destination path := by
  unfold leadsElsewhere FlowGraph.Matching
  split <;> simp

/-! ## Paths one after the other -/

/-- The facts of one more path; a path without stored facts adds nothing. -/
def PathFacts.add (collected : PathFacts) (elsewhere : Bool) : Option Facts → PathFacts
  | none => collected
  | some facts =>
      if elsewhere then
        { collected with elsewhere := collected.elsewhere ++ [facts] }
      else
        { collected with leading := collected.leading ∪ facts }

/-- Goes through paths with what each of them brings. -/
def gather (source : FinallyPath → Except Fault (Option Facts)) (elsewhere : FinallyPath → Bool)
    (paths : List FinallyPath) (start : PathFacts) : Except Fault PathFacts :=
  paths.foldlM (fun collected path => return collected.add (elsewhere path) (← source path)) start

section Gather

variable {source : FinallyPath → Except Fault (Option Facts)} {elsewhere : FinallyPath → Bool}
  {path : FinallyPath} {paths : List FinallyPath} {start result : PathFacts}

theorem gather_cons :
    gather source elsewhere (path :: paths) start = source path >>= fun found =>
      gather source elsewhere paths (start.add (elsewhere path) found) := by
  unfold gather
  rw [List.foldlM_cons]
  cases source path <;> rfl

/-- Gathering succeeds exactly when what every path brings is known. -/
theorem gather_ok_iff :
    (∃ result, gather source elsewhere paths start = .ok result) ↔
      ∀ path ∈ paths, ∃ facts, source path = .ok facts := by
  induction paths generalizing start with
  | nil => simp [gather, pure, Except.pure]
  | cons head tail induction =>
      rw [gather_cons, List.forall_mem_cons]
      cases brought : source head with
      | error fault => simp [bind, Except.bind]
      | ok facts => simpa [bind, Except.bind] using induction

theorem gather_error {fault : Fault} (fails : gather source elsewhere paths start = .error fault) :
    ∃ path ∈ paths, source path = .error fault := by
  induction paths generalizing start with
  | nil => exact nomatch fails
  | cons head tail induction =>
      rw [gather_cons] at fails
      cases brought : source head with
      | error first =>
          rw [brought] at fails
          cases fails
          exact ⟨head, List.mem_cons_self, brought⟩
      | ok facts =>
          rw [brought] at fails
          rcases induction fails with ⟨path, listed, failed⟩
          exact ⟨path, List.mem_cons_of_mem head listed, failed⟩

/-- The path brings the version of the slot. -/
def Brings (source : FinallyPath → Except Fault (Option Facts)) (path : FinallyPath) (slot : Slot)
    (version : Version) : Prop :=
  ∃ facts, source path = .ok (some facts) ∧ version ∈ facts.reaching slot

variable {slot : Slot} {version : Version}

theorem mem_leading_add {collected : PathFacts} {found : Option Facts}
    (brought : source path = .ok found) :
    version ∈ (collected.add (elsewhere path) found).leading.reaching slot ↔
      version ∈ collected.leading.reaching slot ∨
        elsewhere path = false ∧ Brings source path slot version := by
  unfold PathFacts.add Brings
  rw [brought]
  cases found with
  | none => simp
  | some facts => cases elsewhere path <;> simp

theorem mem_elsewhere_add {collected : PathFacts} {found : Option Facts} {facts : Facts}
    (brought : source path = .ok found) :
    facts ∈ (collected.add (elsewhere path) found).elsewhere ↔
      facts ∈ collected.elsewhere ∨ elsewhere path = true ∧ source path = .ok (some facts) := by
  unfold PathFacts.add
  rw [brought]
  cases found with
  | none => simp
  | some own => cases elsewhere path <;> simp [eq_comm]

theorem mem_leading_gather (gathers : gather source elsewhere paths start = .ok result) :
    version ∈ result.leading.reaching slot ↔
      version ∈ start.leading.reaching slot ∨
        ∃ path ∈ paths, elsewhere path = false ∧ Brings source path slot version := by
  induction paths generalizing start with
  | nil =>
      cases gathers
      simp
  | cons head tail induction =>
      rw [gather_cons] at gathers
      rcases Fault.bind_ok gathers with ⟨found, brought, rest⟩
      rw [induction rest, mem_leading_add brought, List.exists_mem_cons_iff, or_assoc]

theorem mem_elsewhere_gather {facts : Facts}
    (gathers : gather source elsewhere paths start = .ok result) :
    facts ∈ result.elsewhere ↔
      facts ∈ start.elsewhere ∨
        ∃ path ∈ paths, elsewhere path = true ∧ source path = .ok (some facts) := by
  induction paths generalizing start with
  | nil =>
      cases gathers
      simp
  | cons head tail induction =>
      rw [gather_cons] at gathers
      rcases Fault.bind_ok gathers with ⟨found, brought, rest⟩
      rw [induction rest, mem_elsewhere_add brought, List.exists_mem_cons_iff, or_assoc]

end Gather

/-! ## What passes -/

/-- A version is left when none of the facts taken away has it. -/
theorem mem_foldl_sdiff {taken : List Facts} {facts : Facts} {slot : Slot} {version : Version} :
    version ∈ (taken.foldl (· \ ·) facts).reaching slot ↔
      version ∈ facts.reaching slot ∧ ∀ other ∈ taken, version ∉ other.reaching slot := by
  induction taken generalizing facts with
  | nil => simp
  | cons head tail induction =>
      rw [List.foldl_cons, induction, Facts.reaching_sdiff, VersionSet.mem_sdiff,
        List.forall_mem_cons, and_assoc]

theorem mem_passing {tables : Tables} {node : NodeId} {facts : Facts} {paths : PathFacts}
    {slot : Slot} {version : Version} :
    version ∈ (tables.passing node facts paths).reaching slot ↔
      version ∈ facts.reaching slot ∧
        (version ∈ paths.leading.reaching slot ∨
          (∀ other ∈ paths.elsewhere, version ∉ other.reaching slot) ∨
          version ∈ ((tables.inFacts[node]?).getD ∅).reaching slot) := by
  unfold passing
  simp only [Facts.reaching_inter, Facts.reaching_union, VersionSet.mem_inter,
    VersionSet.mem_union, mem_foldl_sdiff]
  tauto

/-! ## One exit -/

section Exit

variable (tables : Tables) (graph : FlowGraph) (config : Config) (destination : NodeId)

/-- The facts that reach a node over its edge from an exit, when `level` exits were resolved on the
way to it. -/
def exitFactsAt (level : Nat) (node exit : NodeId) : Except Fault Facts :=
  tables.exitFacts graph config destination (config.maxFinallyDepth + 1 - level) node exit

/-- What comes over the path, with at most `depth` exits still to be resolved. -/
def sourceFacts (depth : Nat) (path : FinallyPath) : Except Fault (Option Facts) :=
  if (graph.shortPaths? path.source).isSome then
    some <$> tables.exitFacts graph config destination depth path.entry path.source
  else
    .ok (tables.edgeFacts? graph path.source path.entry)

/-- What leaves an exit when its paths brought `collected`. -/
def letThrough (node exit : NodeId) (facts : Facts) (collected : PathFacts) : Facts :=
  if (graph.monitorExit? exit).any (· != node) then collected.leading
  else tables.passing node facts collected

variable {tables graph config destination}

/-- An edge that does not leave an exit, or that has no facts, is not restricted. -/
theorem exitFacts_unrestricted {depth : Nat} {node exit : NodeId}
    (free : graph.shortPaths? exit = none ∨ (tables.edgeFacts? graph exit node).getD ∅ = ∅) :
    tables.exitFacts graph config destination (depth + 1) node exit =
      .ok ((tables.edgeFacts? graph exit node).getD ∅) := by
  unfold exitFacts
  cases listed : graph.shortPaths? exit with
  | none => rfl
  | some paths =>
      have empty := free.resolve_left (by simp [listed])
      rw [← Facts.isEmpty_iff] at empty
      simp only [empty, if_true]
      rfl

theorem exitFacts_succ {depth : Nat} {node exit : NodeId} {paths : List FinallyPath}
    {facts : Facts} (listed : graph.shortPaths? exit = some paths)
    (edge : (tables.edgeFacts? graph exit node).getD ∅ = facts) (present : facts ≠ ∅) :
    tables.exitFacts graph config destination (depth + 1) node exit =
      letThrough tables graph node exit facts <$>
        gather (tables.sourceFacts graph config destination depth)
          (leadsElsewhere graph exit node destination) paths {} := by
  have nonempty : facts.isEmpty = false := by
    rw [← Bool.not_eq_true, Facts.isEmpty_iff]
    exact present
  unfold exitFacts gather
  rw [listed, edge, ← bind_pure_comp]
  simp only [nonempty, Bool.false_eq_true, if_false]
  congr 1
  · congr 1
    funext collected path
    unfold sourceFacts PathFacts.add
    split <;> rfl
  · funext collected
    unfold letThrough
    split <;> simp [*]

end Exit

end Tables

end SlotVersioning
