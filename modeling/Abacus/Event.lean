import Abacus.Handle
import Abacus.Placement

/-!
# Events

What the registry and the movable counters report while they work. Every event has a level, a
message and named fields; the fields are texts in a fixed order.
-/

namespace Abacus

/-- How much an event matters. -/
inductive Level
  | trace
  | debug
  | warn
  | error
  deriving DecidableEq

/-- The name shown for a level. -/
def Level.name : Level → String
  | trace => "TRACE"
  | debug => "DEBUG"
  | warn => "WARN"
  | error => "ERROR"

/-- Something that happened to a registry or a movable counter. -/
inductive Event
  /-- The registry issued a handle. -/
  | issued (handle : Handle) (limit : Amount)
  /-- The registry removed a handle. -/
  | removed (handle : Handle)
  /-- The registry was closed when a handle was asked for. -/
  | turnedAway (limit : Amount)
  /-- The registry was opened or closed. -/
  | gateMoved (isOpen : Bool)
  /-- A movable counter was made. -/
  | made (limit : Amount) (placement : Placement)
  /-- A move failed because the new place refused the value. -/
  | misfit (value limit : Amount) (refusal : Refusal)
  /-- A counter moved. -/
  | moved (value limit : Amount) (source target : Placement)
  /-- The owner of a hosted counter let it go. -/
  | letGo
  deriving DecidableEq

namespace Event

def level : Event → Level
  | issued .. => .trace
  | removed _ => .trace
  | turnedAway _ => .warn
  | gateMoved _ => .debug
  | made .. => .trace
  | misfit .. => .error
  | moved .. => .debug
  | letGo => .trace

def message : Event → String
  | issued .. => "created parallel counter"
  | removed _ => "destroyed parallel counter"
  | turnedAway _ => "refusing to create parallel counter, registry unavailable"
  | gateMoved _ => "parallel counter registry availability changed"
  | made .. => "created switchable counter"
  | misfit .. => "re-adding value after switch failed"
  | moved .. => "switched counter representation"
  | letGo => "releasing switchable counter"

/-- The named fields of an event, in the order in which they are reported. -/
def fields : Event → List (String × String)
  | issued handle limit => [("handle", handle.text), ("limit", limit.text)]
  | removed handle => [("handle", handle.text)]
  | turnedAway limit => [("limit", limit.text)]
  | gateMoved isOpen => [("available", if isOpen then "true" else "false")]
  | made limit placement => [("limit", limit.text), ("representation", placement.name)]
  | misfit value limit refusal =>
      [("value", value.text), ("limit", limit.text), ("err", refusal.message)]
  | moved value limit source target =>
      [("value", value.text), ("limit", limit.text), ("from", source.name), ("to", target.name)]
  | letGo => []

end Event

end Abacus
