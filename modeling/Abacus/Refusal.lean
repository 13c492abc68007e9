import Abacus.Amount
import Abacus.Text.Quoted
import Abacus.Text.Layout

/-!
# Refusals

The reasons for which a bounded counter, or the registry that hosts it, turns an operation down.
A refused operation changes nothing. `Refusal.message` is the sentence shown to a user, and
`Refusal.layout` the written form of the refusal as a value.
-/

namespace Abacus

open Text

/-- Why an operation on a bounded counter was turned down. -/
inductive Refusal
  /-- Adding `amount` would pass the limit. -/
  | overflow (amount limit : Amount)
  /-- Subtracting `amount` from `current` would go below zero. -/
  | underflow (amount current : Amount)
  /-- The registry is closed to new handles. -/
  | closed
  /-- The counter's books are broken, as `detail` says. -/
  | corrupt (detail : String)
  deriving DecidableEq

namespace Refusal

/-- The sentence that tells a user what went wrong. -/
def message : Refusal → String
  | overflow amount limit =>
      "adding " ++ amount.text ++ " would exceed the limit of " ++ limit.text
  | underflow amount current =>
      "subtracting " ++ amount.text ++ " from " ++ current.text ++ " would go below zero"
  | closed => "no parallel counter factory is available"
  | corrupt detail => "counter invariant violated: " ++ detail

/-- The name of the kind of refusal. -/
def name : Refusal → String
  | overflow .. => "Overflow"
  | underflow .. => "Underflow"
  | closed => "FactoryUnavailable"
  | corrupt _ => "InvariantViolation"

/-- The written form of a refusal. -/
def layout (r : Refusal) : Layout :=
  match r with
  | overflow amount limit =>
      .record r.name [("value", .atom amount.text), ("limit", .atom limit.text)]
  | underflow amount current =>
      .record r.name [("value", .atom amount.text), ("current", .atom current.text)]
  | closed => .atom r.name
  | corrupt detail => .wrap r.name (.atom (Quoted.quote detail))

/-- The refusal of a move whose amount was not accepted at the new place. -/
def misfit : Refusal :=
  corrupt "value did not fit into a fresh representation with the same limit"

end Refusal

end Abacus
