import SlotVersioning.Versioning.Event
import SlotVersioning.Versioning.Tables
import SlotVersioning.Method.Body
import SlotVersioning.Expression.Term

/-!
# Runs

The state of a run and its elementary actions. A run that fails keeps the state that it reached:
its tables can still be read, and the versions that it wrote stay in the body.
-/

namespace SlotVersioning

open Std

/-- The versions of the accesses that have one, by expression. -/
def Arena.storedVersions (arena : Arena) : ExtTreeMap ExprId Version :=
  .ofList ((arena.accesses.filter fun (_, access) => access.version ≠ 0).map
    fun (expression, access) => (expression, access.version))

structure RunState where
  tables : Tables
  /-- The versions written so far, by expression. -/
  versions : ExtTreeMap ExprId Version := ∅
  /-- The latest event first. -/
  events : List Event := []

abbrev RunM := EStateM Fault RunState

/-- What the evaluation of an expression depends on besides the state. -/
structure Site where
  config : Config
  tree : StatementTree
  /-- The statement that the visited node belongs to. -/
  statement : StatementId
  live : Bool := false

namespace RunM

def tables : RunM Tables := return (← get).tables

def editTables (edit : Tables → Tables) : RunM Unit :=
  modify fun state => { state with tables := edit state.tables }

def editGraph (edit : VersionGraph → VersionGraph) : RunM Unit :=
  editTables fun tables => tables.editGraph edit

def report (event : Event) : RunM Unit :=
  modify fun state => { state with events := event :: state.events }

def ofExcept {α : Type} : Except Fault α → RunM α
  | .ok value => pure value
  | .error fault => throw fault

/-- The version written at an expression, zero when there is none. -/
def versionOf (expression : ExprId) : RunM Version :=
  return (← get).versions.getD expression 0

def writeVersion (expression : ExprId) (version : Version) : RunM Unit :=
  modify fun state => { state with versions := state.versions.insert expression version }

def mint (tree : StatementTree) (slot : Slot) (statement : Option StatementId) : RunM Version :=
  modifyGet fun state =>
    let (tables, version) := state.tables.mint tree slot statement
    (version, { state with tables })

def slotOfField (expression : ExprId) : RunM Slot :=
  modifyGet fun state =>
    let (tables, slot) := state.tables.slotOfField expression
    (slot, { state with tables })

def recordLive (site : Site) (key : VersionKey) (facts : Facts) : RunM Unit :=
  if site.live then editGraph fun graph => graph.withLive key facts else pure ()

end RunM

end SlotVersioning
