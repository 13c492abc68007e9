import Abacus.Host

/-!
# Movable counters

A movable counter is one counter for its owner and lives at one of two places: hosted, under a
lease, or in place. It is moved by `move`, which makes a fresh counter at the other place, adds
the value there, and only then lets the old one go. When the new place refuses, the counter stays
where it is.

All operations are scripts of calls to a host. An operation that may change the counter ends with
the changed counter, or with a refusal, and then the owner goes on with the counter as it was.
-/

namespace Abacus

open Text

/-- A counter at one of two places. -/
inductive Movable
  | hosted (lease : Lease)
  | inPlace (counter : Counter)
  deriving DecidableEq

namespace Movable

/-- Where the counter lives. -/
def placement : Movable → Placement
  | hosted _ => .hosted
  | inPlace _ => .inPlace

/-- The limit, which is known without asking the host. -/
def limit : Movable → Amount
  | hosted l => l.limit
  | inPlace c => c.limit

/-! ## Reading and changing -/

def read : Movable → Script Call.Answer Amount
  | hosted l => l.read
  | inPlace c => pure c.value

/-- How much can be added before the limit is met; zero if the host reads more than the limit. -/
def headroom (m : Movable) : Script Call.Answer Amount := do
  return m.limit.satSub (← m.read)

def add (m : Movable) (x : Amount) : Script Call.Answer (Except Refusal Movable) :=
  match m with
  | hosted l => do return (← l.add x).map fun _ => m
  | inPlace c => pure ((c.add x).map inPlace)

def sub (m : Movable) (x : Amount) : Script Call.Answer (Except Refusal Movable) :=
  match m with
  | hosted l => do return (← l.sub x).map fun _ => m
  | inPlace c => pure ((c.sub x).map inPlace)

/-- The written form of the counter, for which it is read. -/
def layout (m : Movable) : Script Call.Answer Layout := do
  let value ← m.read
  return .record "SwitchableCounter"
    [("representation", .atom m.placement.name),
      ("value", .atom value.text),
      ("limit", .atom m.limit.text)]

/-! ## Making, moving and letting go -/

/-- A fresh counter at the given place. -/
def fresh (limit : Amount) : Placement → Script Call.Answer (Except Refusal Movable)
  | .hosted => do return (← Lease.create limit).map hosted
  | .inPlace => pure (.ok (inPlace (.fresh limit)))

/-- Gives the lease of a hosted counter back. -/
def release : Movable → Script Call.Answer Unit
  | hosted l => l.destroy
  | inPlace _ => pure ()

/-- Makes a counter at zero for an owner. -/
def make (limit : Amount) (p : Placement) : Script Call.Answer (Except Refusal Movable) := do
  match ← fresh limit p with
  | .error e => return .error e
  | .ok m =>
      Script.emit (.made limit p)
      return .ok m

/-- Moves the counter to the other place. -/
def move (m : Movable) : Script Call.Answer (Except Refusal Movable) := do
  let value ← m.read
  match ← fresh m.limit m.placement.flip with
  | .error e => return .error e
  | .ok target =>
      match ← target.add value with
      | .error e =>
          Script.emit (.misfit value m.limit e)
          target.release
          return .error .misfit
      | .ok moved =>
          m.release
          Script.emit (.moved value m.limit m.placement m.placement.flip)
          return .ok moved

/-- The owner lets the counter go. -/
def drop : Movable → Script Call.Answer Unit
  | hosted l => do
      Script.emit .letGo
      l.destroy
  | inPlace _ => pure ()

end Movable

end Abacus
