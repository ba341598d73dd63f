import SlotVersioning.Flow.Validation
import SlotVersioning.Method.Signature
import SlotVersioning.Statement.Traversal

/-!
# Method bodies

What a versioning run reads of one method: its expressions, its statements, their control flow, and
where its parameters arrive.
-/

namespace SlotVersioning

structure Body where
  arena : Arena := {}
  statements : StatementTree := {}
  graph : FlowGraph := {}
  signature : Signature := {}

namespace Body

instance : Inhabited Body := ⟨{}⟩

def validate (body : Body) : Except Fault Unit := body.graph.validate body.statements body.arena

def unversioned (body : Body) : Body := { body with arena := body.arena.unversioned }

end Body

end SlotVersioning
