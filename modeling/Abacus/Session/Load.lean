import Abacus.Pool
import Abacus.Session.Basic

/-!
# Concurrent load

A load is a number of threads that each make the same call to the session's host a number of times.
The threads share the registry in a pool; they take turns in rounds, and those that are not through
after the last round go on alone. The totals that a load reports do not depend on the schedule.
-/

namespace Abacus

/-- How many threads, and how often each of them makes its call. -/
structure Load where
  threads : Nat
  times : Nat
  deriving DecidableEq

namespace Load

variable {α : Type}

/-- The schedule of a load whose call takes at most four actions. -/
def schedule (l : Load) : List Nat := Pool.rounds l.threads (4 * l.times)

/-- Puts the load on the session's host: the answers thread by thread, and the registry after it. -/
def put (l : Load) (s : Session) (c : Script Call.Answer α) :
    List (Except DeadHandle (List α)) × Registry :=
  let script := s.distortion.carryOut (c.times l.times)
  ((Pool.start s.registry (List.replicate l.threads script)).run l.schedule).finish

/-- All answers of a load, unless a thread met a dead handle. -/
def answers (results : List (Except DeadHandle (List α))) : Except DeadHandle (List α) :=
  (results.mapM id).map List.flatten

/-- Asks for a handle and, if wanted, gives it back at once. -/
def visit (limit : Amount) (destroy : Bool) : Script Call.Answer (Except Refusal Handle) := do
  match ← Lease.create limit with
  | .error e => return .error e
  | .ok l =>
      if destroy then l.destroy
      return .ok l.handle

/-- The accepted answers in order. -/
def accepted (rs : List (Except Refusal α)) : List α :=
  rs.filterMap fun
    | .ok a => some a
    | .error _ => none

/-- Counts the accepted and the refused answers. -/
def tally (rs : List (Except Refusal Unit)) : Reply :=
  .tally (accepted rs).length (rs.length - (accepted rs).length)

/-- The handles given out, in ascending order, and the number of refusals. -/
def harvest (rs : List (Except Refusal Handle)) : Reply :=
  .harvest ((accepted rs).mergeSort fun a b => a.id ≤ b.id) (rs.length - (accepted rs).length)

end Load

end Abacus
