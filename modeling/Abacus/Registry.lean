import Std.Data.ExtTreeMap
import Abacus.Handle

/-!
# The registry

A registry hosts counters under handles. It has a gate, which must be open for a new handle to be
issued, the handle to be issued next, and the table of the hosted counters. Two registries are equal
when their gates, next handles and all look-ups agree.
-/

namespace Abacus

open Text

/-- The host of a family of counters. -/
@[ext]
structure Registry where
  /-- Whether new handles are issued. -/
  isOpen : Bool
  /-- The handle to be issued next. -/
  next : Handle
  /-- The hosted counters. -/
  table : Std.ExtTreeMap Handle Counter

namespace Registry

/-- A registry that hosts nothing yet. -/
def empty (isOpen : Bool) : Registry := ⟨isOpen, ⟨0#64⟩, ∅⟩

/-- The number of hosted counters. -/
def live (r : Registry) : Nat := r.table.size

/-- Whether a handle names a hosted counter. -/
def IsLive (r : Registry) (h : Handle) : Prop := h ∈ r.table

instance (r : Registry) (h : Handle) : Decidable (r.IsLive h) :=
  inferInstanceAs (Decidable (h ∈ r.table))

/-- The written form of a registry, with the hosted counters in the order of their handles. -/
def layout (r : Registry) : Layout :=
  .record "InMemoryBackend"
    [("available", .atom (if r.isOpen then "true" else "false")),
      ("next_handle", .atom r.next.text),
      ("handles", .record "RwLock"
        [("data", .entries (r.table.toList.map fun e =>
          (e.1.layout, .record "Mutex" [("data", e.2.layout)])))])]

end Registry

end Abacus
