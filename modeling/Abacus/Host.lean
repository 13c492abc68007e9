import Abacus.Action

/-!
# Hosts

Owners of hosted counters do not touch the registry; they call a host, which creates, changes,
reads and destroys counters under leases. A script of calls does not fix the host. `Call.serve` is
the honest host: it answers every call by actions on the registry. A creation takes three of them
(look at the gate, draw a handle, place the counter), all other calls take one.
-/

namespace Abacus

/-- A request to a host. -/
inductive Call
  /-- Asks for a new counter at zero. -/
  | create (limit : Amount)
  /-- Adds to the counter under a lease. -/
  | add (lease : Lease) (amount : Amount)
  /-- Subtracts from the counter under a lease. -/
  | sub (lease : Lease) (amount : Amount)
  /-- Asks for the value under a lease. -/
  | read (lease : Lease)
  /-- Gives a lease back. -/
  | destroy (lease : Lease)
  deriving DecidableEq

/-- What a host answers to a call. -/
abbrev Call.Answer : Call → Type
  | create _ => Except Refusal Lease
  | add .. => Except Refusal Unit
  | sub .. => Except Refusal Unit
  | read _ => Amount
  | destroy _ => Unit

namespace Lease

/-! ## Calls as scripts -/

/-- Asks the host for a new counter at zero. -/
def create (limit : Amount) : Script Call.Answer (Except Refusal Lease) :=
  .query (Call.create limit)

def add (l : Lease) (x : Amount) : Script Call.Answer (Except Refusal Unit) := .query (Call.add l x)

def sub (l : Lease) (x : Amount) : Script Call.Answer (Except Refusal Unit) := .query (Call.sub l x)

def read (l : Lease) : Script Call.Answer Amount := .query (Call.read l)

def destroy (l : Lease) : Script Call.Answer Unit := .query (Call.destroy l)

end Lease

namespace Registry

/-! ## The honest host -/

/-- Issues a handle for a fresh counter, if the gate is open. -/
def issue (limit : Amount) : Script Action.Answer (Except Refusal Lease) :=
  .ask .look fun
    | false => .report (.turnedAway limit) (.done (.error .closed))
    | true =>
        .ask .draw fun h =>
          .ask (.place h limit) fun _ =>
            .report (.issued h limit) (.done (.ok ⟨h, limit⟩))

/-- Takes a hosted counter out of the table. -/
def withdraw (h : Handle) : Script Action.Answer Unit :=
  .ask (.remove h) fun _ => .report (.removed h) (.done ())

/-- Opens or closes the gate; only a real change is reported. -/
def setGate (isOpen : Bool) : Script Action.Answer Unit :=
  .ask (.setGate isOpen) fun before =>
    if before = isOpen then .done () else .report (.gateMoved isOpen) (.done ())

/-! ## What the honest host's scripts leave behind -/

theorem run_issue_of_open {r : Registry} (h : r.isOpen = true) (limit : Amount) :
    (issue limit).run r =
      ⟨.ok (.ok ⟨r.next, limit⟩),
        { r with next := r.next.succ, table := r.table.insert r.next (.fresh limit) },
        [.issued r.next limit]⟩ := by
  simp [issue, Script.run, act, h]

theorem run_issue_of_closed {r : Registry} (h : r.isOpen = false) (limit : Amount) :
    (issue limit).run r = ⟨.ok (.error .closed), r, [.turnedAway limit]⟩ := by
  simp [issue, Script.run, act, h]

theorem run_withdraw_of_live {r : Registry} {h : Handle} {c : Counter} (hc : r.table[h]? = some c) :
    (withdraw h).run r = ⟨.ok (), { r with table := r.table.erase h }, [.removed h]⟩ := by
  simp [withdraw, Script.run, act, find_eq_ok_iff.2 hc, Except.map]

theorem run_setGate (r : Registry) (isOpen : Bool) :
    (setGate isOpen).run r =
      ⟨.ok (), { r with isOpen }, if r.isOpen = isOpen then [] else [.gateMoved isOpen]⟩ := by
  by_cases h : r.isOpen = isOpen <;> simp [setGate, Script.run, act, h]

end Registry

/-- The honest host's answer to a call. -/
def Call.serve : (c : Call) → Script Action.Answer c.Answer
  | create limit => Registry.issue limit
  | add l x => .query (Action.add l.handle x)
  | sub l x => .query (Action.sub l.handle x)
  | read l => .query (Action.read l.handle)
  | destroy l => Registry.withdraw l.handle

end Abacus
