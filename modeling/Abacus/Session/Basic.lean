import Abacus.Distortion
import Abacus.Movable

/-!
# Sessions

A session is a registry, the host before it, and three tables of numbered slots: for counters of its
own, for leases and for movable counters. This file gives the state of a session, the replies to its
steps, and what a slot shows of its content.
-/

namespace Abacus

/-- Numbered slots, some of them filled. -/
abbrev Slots (α : Type) := Std.ExtTreeMap Nat α

/-- The state of a session. -/
structure Session where
  distortion : Distortion
  registry : Registry
  counters : Slots Counter
  leases : Slots Lease
  movables : Slots Movable

/-- The reply to a step. -/
inductive Reply
  /-- The step was done and there is nothing to tell. -/
  | done
  | refused (r : Refusal)
  | dead (d : DeadHandle)
  /-- A slot that the step needs is empty. -/
  | vacant
  | amount (a : Amount)
  | handle (h : Handle)
  | lease (l : Lease)
  | placement (p : Placement)
  | flag (b : Bool)
  | count (n : Nat)
  | text (s : String)
  /-- How many calls of a load were accepted and how many refused. -/
  | tally (accepted refused : Nat)
  /-- The handles that a load was given, in ascending order, and how often it was refused one. -/
  | harvest (handles : List Handle) (refused : Nat)
  deriving DecidableEq

namespace Reply

/-- The reply to a step that ends with a value or with a dead handle. -/
def ofResult {α : Type} (reply : α → Reply) : Except DeadHandle α → Reply
  | .ok a => reply a
  | .error d => .dead d

/-- The reply to a step that is accepted or refused. -/
def ofAccepted : Except Refusal Unit → Reply
  | .ok () => .done
  | .error r => .refused r

end Reply

/-- What a slot shows: the values are read through the session's host, which may fail. -/
inductive View
  | counter (value limit headroom : Amount)
  | lease (handle : Handle) (limit : Amount) (value : Except DeadHandle Amount)
  | movable (placement : Placement) (limit : Amount) (value headroom : Except DeadHandle Amount)

namespace Session

variable {α : Type}

/-- A session with empty slots and an empty registry. -/
def start (distortion : Distortion) (isOpen : Bool) : Session :=
  ⟨distortion, .empty isOpen, ∅, ∅, ∅⟩

/-- The outcome of a script of calls to the session's host. -/
def call (s : Session) (c : Script Call.Answer α) : Outcome α :=
  (s.distortion.carryOut c).run s.registry

def viewCounter (s : Session) (slot : Nat) : Option View :=
  s.counters[slot]?.map fun c => .counter c.value c.limit c.headroom

def viewLease (s : Session) (slot : Nat) : Option View :=
  s.leases[slot]?.map fun l => .lease l.handle l.limit (s.call l.read).result

def viewMovable (s : Session) (slot : Nat) : Option View :=
  s.movables[slot]?.map fun m =>
    .movable m.placement m.limit (s.call m.read).result (s.call m.headroom).result

end Session

end Abacus
