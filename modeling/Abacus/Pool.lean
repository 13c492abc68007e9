import Abacus.Action

/-!
# Thread pools

A pool is a registry shared by threads. A thread is the script it still has to go through, or the
failure that ended it. In a turn one thread performs its next action and no other thread does
anything; a schedule says whose turn it is. Events are not collected from threads.
-/

namespace Abacus

/-- A thread of a pool. -/
inductive Strand (α : Type)
  /-- The thread still has a script to go through. -/
  | going (s : Script Action.Answer α)
  /-- The thread met a handle that was not live. -/
  | dead (d : DeadHandle)

namespace Strand

variable {α : Type}

/-- Performs the next action of a script, if there is one. -/
def step : Script Action.Answer α → Registry → Strand α × Registry
  | .done a, r => (going (.done a), r)
  | .report _ rest, r => step rest r
  | .ask q next, r =>
      match r.act q with
      | .error d => (dead d, r)
      | .ok (a, r') => (going (next a), r')

/-- One turn of a thread. A thread that has ended lets the turn pass. -/
def turn : Strand α → Registry → Strand α × Registry
  | going s, r => step s r
  | dead d, r => (dead d, r)

/-- Lets a thread go on alone to its end. -/
def finish : Strand α → Registry → Except DeadHandle α × Registry
  | going s, r => let o := s.run r; (o.result, o.registry)
  | dead d, r => (.error d, r)

end Strand

/-- Threads on a shared registry. -/
structure Pool (α : Type) where
  registry : Registry
  strands : List (Strand α)

namespace Pool

variable {α : Type}

/-- A pool of threads that have not begun. -/
def start (r : Registry) (scripts : List (Script Action.Answer α)) : Pool α :=
  ⟨r, scripts.map .going⟩

/-- Gives the turn to thread `i`. -/
def turn (p : Pool α) (i : Nat) : Pool α :=
  match p.strands[i]? with
  | none => p
  | some s =>
      let (s', r) := s.turn p.registry
      ⟨r, p.strands.set i s'⟩

/-- Gives the turns in the order of the schedule. -/
def run (p : Pool α) (schedule : List Nat) : Pool α := schedule.foldl turn p

theorem run_append (p : Pool α) (first later : List Nat) :
    p.run (first ++ later) = (p.run first).run later :=
  List.foldl_append

/-- Lets the threads go on to their ends, one after the other. -/
def finish (p : Pool α) : List (Except DeadHandle α) × Registry :=
  go p.strands p.registry
where
  /-- Finishes the given threads in order. -/
  go : List (Strand α) → Registry → List (Except DeadHandle α) × Registry
    | [], r => ([], r)
    | s :: rest, r =>
        let (a, r) := s.finish r
        let (as, r) := go rest r
        (a :: as, r)

/-- Rounds in which each of `threads` threads has one turn. -/
def rounds (threads n : Nat) : List Nat := (List.replicate n (List.range threads)).flatten

end Pool

end Abacus
