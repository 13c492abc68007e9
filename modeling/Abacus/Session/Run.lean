import Abacus.Session.Step

/-!
# Whole sessions

A session takes its steps in order and tells after each what it did and what the slot and the
registry look like. At the end the movable counters that are left are dropped in the order of
their slots.
-/

namespace Abacus

namespace Session

/-- What is told after a step. -/
structure Report where
  reply : Reply
  view : Option View
  live : Nat
  isOpen : Bool
  events : List Event

/-- What is told at the end: the counters whose drop met a dead handle, and what is still hosted. -/
structure Closing where
  live : Nat
  dead : List (Nat × DeadHandle)
  events : List Event

/-- Takes a step and reports on it. -/
def step (s : Session) (q : Step) : Session × Report :=
  let t := s.take q
  (t.session,
    ⟨t.reply, t.session.view q, t.session.registry.live, t.session.registry.isOpen, t.events⟩)

/-- Drops the counters of the given slots, one after the other. -/
def dropAll (d : Distortion) (r : Registry) : List (Nat × Movable) → Closing
  | [] => ⟨r.live, [], []⟩
  | (slot, m) :: rest =>
      let o := (d.carryOut m.drop).run r
      let closing := dropAll d o.registry rest
      let dead :=
        match o.result with
        | .ok _ => closing.dead
        | .error h => (slot, h) :: closing.dead
      ⟨closing.live, dead, o.events ++ closing.events⟩

/-- Ends the session. -/
def close (s : Session) : Closing := dropAll s.distortion s.registry s.movables.toList

/-- Takes all steps, then ends the session. -/
def run (s : Session) : List Step → List Report × Closing
  | [] => ([], s.close)
  | q :: qs =>
      let (s, report) := s.step q
      let (reports, closing) := s.run qs
      (report :: reports, closing)

end Session

end Abacus
