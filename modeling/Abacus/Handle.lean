import Abacus.Counter

/-!
# Handles and leases

A registry names each counter it hosts by a handle, a 64-bit number. Whoever asked for the counter
holds a lease on it: the handle, and the limit, which can so be read without asking the registry.
An operation through a handle that the registry does not know fails for good with `DeadHandle`.
-/

namespace Abacus

open Text

/-- The name of a hosted counter. -/
@[ext]
structure Handle where
  id : BitVec 64
  deriving DecidableEq

namespace Handle

instance : Inhabited Handle := ⟨⟨0#64⟩⟩

instance : Ord Handle := ⟨compareOn Handle.id⟩

instance : LT Handle := ⟨fun a b => a.id < b.id⟩

instance (a b : Handle) : Decidable (a < b) := inferInstanceAs (Decidable (a.id < b.id))

instance : Std.TransOrd Handle := inferInstanceAs (Std.TransCmp (compareOn Handle.id))

instance : Std.LawfulEqOrd Handle where
  eq_of_compare {a b} h := Handle.ext (Std.LawfulEqOrd.eq_of_compare (a := a.id) (b := b.id) h)

/-- The handle after this one; the last is followed by the first. -/
def succ (h : Handle) : Handle := ⟨h.id + 1#64⟩

/-- The decimal digits of the handle's number. -/
def text (h : Handle) : String := h.id.toNat.repr

/-- The written form of a handle. -/
def layout (h : Handle) : Layout := .wrap "HandleId" (.atom h.text)

end Handle

/-- The right to one hosted counter. -/
structure Lease where
  handle : Handle
  limit : Amount
  deriving DecidableEq

namespace Lease

/-- The written form of a lease. -/
def layout (l : Lease) : Layout :=
  .record "ParallelRef" [("handle", l.handle.layout), ("limit", .atom l.limit.text)]

end Lease

/-- The failure of an operation through a handle that names no hosted counter. -/
structure DeadHandle where
  handle : Handle
  deriving DecidableEq

namespace DeadHandle

/-- The sentence that reports the failure. -/
def message (d : DeadHandle) : String :=
  "Parallel counter handle " ++ d.handle.layout.inline ++ " is not live in this backend."

end DeadHandle

end Abacus
