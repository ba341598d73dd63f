import SlotVersioning.Version.Key

/-!
# Signatures

Where the parameters of a method arrive: the receiver, if there is one, takes the first slot, and
each parameter takes the slots of its width after it.
-/

namespace SlotVersioning

inductive SlotWidth
  | single | double
deriving DecidableEq, Repr

def SlotWidth.slots : SlotWidth → Nat
  | single => 1
  | double => 2

structure Signature where
  isStatic : Bool := false
  parameters : List SlotWidth := []
deriving DecidableEq, Repr

namespace Signature

instance : Inhabited Signature := ⟨{}⟩

def layout (start : Nat) : List SlotWidth → List Slot
  | [] => []
  | width :: rest => (start : Int) :: layout (start + width.slots) rest

/-- The first slot of every value that arrives, the receiver included. -/
def arrivalSlots (signature : Signature) : List Slot :=
  if signature.isStatic then
    layout 0 signature.parameters
  else
    layout 0 (.single :: signature.parameters)

example : arrivalSlots { parameters := [.double, .single] } = [0, 1, 3] := by decide

end Signature

end SlotVersioning
