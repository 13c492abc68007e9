import Abacus.Registry
import Abacus.Script

/-!
# Atomic actions

The registry is shared between threads, and an action is what one thread does to it without another
coming between: one access to the gate, to the sequence of handles, to the table or to one hosted
counter. `Registry.act` performs an action. It fails only on a handle that is not live, and then the
registry is as before. `Script.run` performs the actions of a script one after the other.
-/

namespace Abacus

/-- One atomic access to a registry. -/
inductive Action
  /-- Looks whether the gate is open. -/
  | look
  /-- Opens or closes the gate. -/
  | setGate (isOpen : Bool)
  /-- Takes the next handle of the sequence. -/
  | draw
  /-- Puts a fresh counter into the table. -/
  | place (handle : Handle) (limit : Amount)
  /-- Adds to a hosted counter. -/
  | add (handle : Handle) (amount : Amount)
  /-- Subtracts from a hosted counter. -/
  | sub (handle : Handle) (amount : Amount)
  /-- Reads a hosted counter. -/
  | read (handle : Handle)
  /-- Takes a hosted counter out of the table. -/
  | remove (handle : Handle)
  deriving DecidableEq

/-- What an action finds out. Opening or closing the gate tells how it was before. -/
abbrev Action.Answer : Action → Type
  | look => Bool
  | setGate _ => Bool
  | draw => Handle
  | place .. => Unit
  | add .. => Except Refusal Unit
  | sub .. => Except Refusal Unit
  | read _ => Amount
  | remove _ => Unit

/-- The hosted counter that an action works on. -/
def Action.target? : Action → Option Handle
  | add h _ => some h
  | sub h _ => some h
  | read h => some h
  | remove h => some h
  | _ => none

namespace Registry

/-- The counter under a handle. -/
def find (r : Registry) (h : Handle) : Except DeadHandle Counter :=
  match r.table[h]? with
  | none => .error ⟨h⟩
  | some c => .ok c

/-- Puts the changed counter under its handle; a refused change leaves the registry as it was. -/
def put (r : Registry) (h : Handle) : Except Refusal Counter → Except Refusal Unit × Registry
  | .ok c => (.ok (), { r with table := r.table.insert h c })
  | .error e => (.error e, r)

/-- Performs one action. -/
def act (r : Registry) : (q : Action) → Except DeadHandle (q.Answer × Registry)
  | .look => .ok (r.isOpen, r)
  | .setGate isOpen => .ok (r.isOpen, { r with isOpen })
  | .draw => .ok (r.next, { r with next := r.next.succ })
  | .place h limit => .ok ((), { r with table := r.table.insert h (.fresh limit) })
  | .add h x => (r.find h).map fun c => r.put h (c.add x)
  | .sub h x => (r.find h).map fun c => r.put h (c.sub x)
  | .read h => (r.find h).map fun c => (c.value, r)
  | .remove h => (r.find h).map fun _ => ((), { r with table := r.table.erase h })

theorem find_eq_ok_iff {r : Registry} {h : Handle} {c : Counter} :
    r.find h = .ok c ↔ r.table[h]? = some c := by
  unfold find
  split <;> simp_all

theorem find_eq_error_iff {r : Registry} {h : Handle} {d : DeadHandle} :
    r.find h = .error d ↔ h = d.handle ∧ ¬ r.IsLive h := by
  obtain ⟨k⟩ := d
  unfold find IsLive
  rw [Std.ExtTreeMap.mem_iff_isSome_getElem?]
  split <;> simp_all

/-- An action fails exactly when the counter it works on is not hosted. -/
theorem act_eq_error_iff {r : Registry} {q : Action} {d : DeadHandle} :
    r.act q = .error d ↔ q.target? = some d.handle ∧ ¬ r.IsLive d.handle := by
  have key {α : Type} (h : Handle) (f : Counter → α) :
      (r.find h).map f = .error d ↔ h = d.handle ∧ ¬ r.IsLive d.handle := by
    have hfind := @find_eq_error_iff r h d
    cases heq : r.find h <;> rw [heq] at hfind <;> grind [Except.map]
  cases q <;> simp [act, Action.target?, key]

end Registry

/-! ## Running a script alone -/

/-- How a script ended, and what it left behind. -/
structure Outcome (α : Type) where
  result : Except DeadHandle α
  registry : Registry
  events : List Event

/-- Goes on with `f` unless the script met a dead handle. -/
def Outcome.andThen {α β : Type} (o : Outcome α) (f : α → Registry → Outcome β) : Outcome β :=
  match o.result with
  | .error d => ⟨.error d, o.registry, o.events⟩
  | .ok a =>
      let o' := f a o.registry
      { o' with events := o.events ++ o'.events }

namespace Script

variable {α β : Type}

/-- Performs the actions of a script one after the other, up to the first that fails. -/
def run : Script Action.Answer α → Registry → Outcome α
  | done a, r => ⟨.ok a, r, []⟩
  | ask q next, r =>
      match r.act q with
      | .error d => ⟨.error d, r, []⟩
      | .ok (a, r') => (next a).run r'
  | report e rest, r =>
      let o := rest.run r
      { o with events := e :: o.events }

theorem run_bind (s : Script Action.Answer α) (f : α → Script Action.Answer β) (r : Registry) :
    (s.bind f).run r = (s.run r).andThen fun a => (f a).run := by
  induction s generalizing r with
  | done a => rfl
  | ask q next ih =>
      simp only [Script.bind, run]
      split
      · rfl
      · exact ih _ _
  | report e rest ih =>
      simp only [Script.bind, run, ih, Outcome.andThen]
      split <;> rfl

end Script

end Abacus
