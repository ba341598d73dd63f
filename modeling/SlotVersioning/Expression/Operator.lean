/-!
# Operators, forms and literals

The closed lists of words that expressions are labelled with. Their symbols are the ones that
messages show.
-/

namespace SlotVersioning

inductive Operator
  | add | sub | mul | div | rem
  | and | or | xor | shl | shr | ushr
  | eq | ne | lt | le | gt | ge
  | neg | bitNot | cast | arrayLength
deriving DecidableEq, Repr

def Operator.symbol : Operator → String
  | add => "+"
  | sub => "-"
  | mul => "*"
  | div => "/"
  | rem => "%"
  | and => "&"
  | or => "|"
  | xor => "^"
  | shl => "<<"
  | shr => ">>"
  | ushr => ">>>"
  | eq => "=="
  | ne => "!="
  | lt => "<"
  | le => "<="
  | gt => ">"
  | ge => ">="
  | neg => "-"
  | bitNot => "~"
  | cast => "(cast)"
  | arrayLength => "length"

inductive IncrementForm
  | preIncrement | postIncrement | preDecrement | postDecrement
deriving DecidableEq, Repr

def IncrementForm.symbol : IncrementForm → String
  | preIncrement => "++x"
  | postIncrement => "x++"
  | preDecrement => "--x"
  | postDecrement => "x--"

/-! ## Forms without a symbol -/

inductive ExitForm
  | return | throw
deriving DecidableEq, Repr

inductive MonitorForm
  | enter | exit
deriving DecidableEq, Repr

inductive Literal
  | null
  | bool (value : Bool)
  | int (value : Int)
  /-- A binary64 number, by its bits. -/
  | float (bits : UInt64)
  | text (value : String)
deriving DecidableEq, Repr

end SlotVersioning
