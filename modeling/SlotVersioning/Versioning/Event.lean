import SlotVersioning.Facts.Basic
import SlotVersioning.Fault

/-!
# Events

What a run reports while it works. `Event.line` is the line for a log.
-/

namespace SlotVersioning

inductive Event
  | versionsDiscarded (count : Nat)
  | nothingToDo
  | passFinished (pass nodes dirty : Nat)
  | liveRoundFinished (versions : Nat)
  | outFactsChanged (node : NodeId) (facts : Facts)
  | copied (definition source : VersionKey)
  | phantomMinted (phantom key : VersionKey)
  | merged (key : VersionKey) (sources : VersionSet)
  | phiInputMinted (input : VersionKey) (source : Version) (key : VersionKey)

namespace Event

inductive Level
  | debug
  | trace
deriving DecidableEq, Repr

def Level.name : Level → String
  | debug => "DEBUG"
  | trace => "TRACE"

def level : Event → Level
  | versionsDiscarded .. | nothingToDo | passFinished .. | liveRoundFinished .. => .debug
  | _ => .trace

def message : Event → String
  | versionsDiscarded count => s!"Discarded {count} versions from an earlier run"
  | nothingToDo => "Empty flow graph, nothing to version"
  | passFinished pass nodes dirty => s!"SSA pass {pass} over {nodes} nodes, {dirty} dirty"
  | liveRoundFinished versions => s!"Live round done, {versions} version nodes"
  | outFactsChanged node facts => s!"{nodeName node} out-facts changed: {facts}"
  | copied definition source => s!"direct assignment {definition} <- {source}"
  | phantomMinted phantom key => s!"phantom {phantom} for {key}"
  | merged key sources => s!"phi {key} <- {sources}"
  | phiInputMinted input source key =>
      s!"phi input {input} from version {source} into {key}"

def line (event : Event) : String := s!"{event.level.name} {event.message}"

end Event

end SlotVersioning
