import Abacus.Session.Load

/-!
# Steps of a session

A step fills a slot, works on what a slot holds (a counter of the session's own, a lease or a
movable counter), or concerns the registry as a whole. A step that needs a filled slot and finds
it empty is answered by `Reply.vacant` and changes nothing. `Session.take` takes a step.
-/

namespace Abacus

/-! ## The steps -/

/-- A step on a counter of the session's own. -/
inductive CounterStep
  | add (amount : Amount)
  | sub (amount : Amount)
  | read
  | limit
  | headroom
  /-- Puts a copy into another slot. -/
  | copy (target : Nat)
  | equals (other : Nat)
  | write (block : Bool)
  /-- Empties the slot and tells the limit. -/
  | destroy
  deriving DecidableEq

/-- A step on a lease. -/
inductive LeaseStep
  | add (amount : Amount)
  | sub (amount : Amount)
  | read
  | limit
  | handle
  | equals (other : Nat)
  | write (block : Bool)
  /-- Empties the slot, then gives the lease back. -/
  | destroy
  | loadAdd (load : Load) (amount : Amount)
  | loadSub (load : Load) (amount : Amount)
  deriving DecidableEq

/-- A step on a movable counter. -/
inductive MovableStep
  | add (amount : Amount)
  | sub (amount : Amount)
  | move
  | read
  | limit
  | headroom
  | isHosted
  | placement
  /-- Whether the counter calls the session's host, as all counters of a session do. -/
  | isServedHere
  | write (block : Bool)
  /-- Empties the slot, then lets the counter go. -/
  | drop
  deriving DecidableEq

/-- A step on the registry as a whole. -/
inductive RegistryStep
  | live
  | isOpen
  | setGate (isOpen : Bool)
  | write (block : Bool)
  /-- Asks for handles from many threads; each is given back at once if `destroy` is set. -/
  | loadCreate (load : Load) (limit : Amount) (destroy : Bool)
  deriving DecidableEq

/-- A step of a session. -/
inductive Step
  | newCounter (slot : Nat) (limit : Amount)
  | counter (slot : Nat) (step : CounterStep)
  /-- Puts a lease from the host into the slot; one that was there is forgotten. -/
  | newLease (slot : Nat) (limit : Amount)
  /-- Puts a lease into the slot that no host handed out. -/
  | forgeLease (slot : Nat) (lease : Lease)
  | lease (slot : Nat) (step : LeaseStep)
  /-- Puts a movable counter into the slot; one that was there is dropped afterwards. -/
  | newMovable (slot : Nat) (limit : Amount) (placement : Placement)
  | movable (slot : Nat) (step : MovableStep)
  | registry (step : RegistryStep)
  deriving DecidableEq

namespace Session

variable {α : Type}

/-- The session after a step, the reply to it, and the events on the way. -/
structure Taken where
  session : Session
  reply : Reply
  events : List Event

/-- A step that changes nothing and has no events. -/
def told (s : Session) (reply : Reply) : Taken := ⟨s, reply, []⟩

/-- The text of a layout in the wanted form. -/
def written (block : Bool) (l : Text.Layout) : Reply :=
  .text (if block then l.block else l.inline)

/-- Calls the host and makes the reply from the result. -/
def asked (s : Session) (c : Script Call.Answer α) (reply : α → Reply) : Taken :=
  let o := s.call c
  ⟨{ s with registry := o.registry }, .ofResult reply o.result, o.events⟩

/-! ## Counters -/

/-- Puts a changed counter into its slot, or tells why the change was refused. -/
def putCounter (s : Session) (slot : Nat) : Except Refusal Counter → Taken
  | .ok c => ⟨{ s with counters := s.counters.insert slot c }, .done, []⟩
  | .error e => s.told (.refused e)

def takeCounter (s : Session) (slot : Nat) (c : Counter) : CounterStep → Taken
  | .add x => s.putCounter slot (c.add x)
  | .sub x => s.putCounter slot (c.sub x)
  | .read => s.told (.amount c.value)
  | .limit => s.told (.amount c.limit)
  | .headroom => s.told (.amount c.headroom)
  | .copy target => s.putCounter target (.ok c)
  | .equals other => s.told ((s.counters[other]?).elim .vacant fun c' => .flag (c = c'))
  | .write block => s.told (written block c.layout)
  | .destroy => ⟨{ s with counters := s.counters.erase slot }, .amount c.limit, []⟩

/-! ## Leases -/

/-- Puts a load of calls on the host. -/
def loaded (s : Session) (load : Load) (c : Script Call.Answer α) (reply : List α → Reply) :
    Taken :=
  let (results, registry) := load.put s c
  ⟨{ s with registry }, .ofResult reply (Load.answers results), []⟩

/-- Asks the host for a lease, which goes into the slot unless it is refused. -/
def takeNewLease (s : Session) (slot : Nat) (limit : Amount) : Taken :=
  let o := s.call (Lease.create limit)
  let s := { s with registry := o.registry }
  match o.result with
  | .error d => ⟨s, .dead d, o.events⟩
  | .ok (.error e) => ⟨s, .refused e, o.events⟩
  | .ok (.ok l) => ⟨{ s with leases := s.leases.insert slot l }, .lease l, o.events⟩

def takeLease (s : Session) (slot : Nat) (l : Lease) : LeaseStep → Taken
  | .add x => s.asked (l.add x) .ofAccepted
  | .sub x => s.asked (l.sub x) .ofAccepted
  | .read => s.asked l.read .amount
  | .limit => s.told (.amount l.limit)
  | .handle => s.told (.handle l.handle)
  | .equals other => s.told ((s.leases[other]?).elim .vacant fun l' => .flag (l = l'))
  | .write block => s.told (written block l.layout)
  | .destroy => { s with leases := s.leases.erase slot }.asked l.destroy fun _ => .done
  | .loadAdd load x => s.loaded load (l.add x) Load.tally
  | .loadSub load x => s.loaded load (l.sub x) Load.tally

/-! ## Movable counters -/

/-- Carries out an operation that changes the counter in a slot; when the operation is refused or
meets a dead handle, the slot keeps the counter it had. -/
def changed (s : Session) (slot : Nat) (c : Script Call.Answer (Except Refusal Movable)) : Taken :=
  let o := s.call c
  let s := { s with registry := o.registry }
  match o.result with
  | .error d => ⟨s, .dead d, o.events⟩
  | .ok (.error e) => ⟨s, .refused e, o.events⟩
  | .ok (.ok m) => ⟨{ s with movables := s.movables.insert slot m }, .done, o.events⟩

/-- Makes a movable counter for a slot. The counter that it replaces is dropped last, and if that
meets a dead handle, the new counter stays all the same. -/
def takeNewMovable (s : Session) (slot : Nat) (limit : Amount) (p : Placement) : Taken :=
  let t := s.changed slot (Movable.make limit p)
  match t.reply, s.movables[slot]? with
  | .done, some old =>
      let dropped := t.session.asked old.drop fun _ => .done
      { dropped with events := t.events ++ dropped.events }
  | _, _ => t

def takeMovable (s : Session) (slot : Nat) (m : Movable) : MovableStep → Taken
  | .add x => s.changed slot (m.add x)
  | .sub x => s.changed slot (m.sub x)
  | .move => s.changed slot m.move
  | .read => s.asked m.read .amount
  | .limit => s.told (.amount m.limit)
  | .headroom => s.asked m.headroom .amount
  | .isHosted => s.told (.flag m.placement.isHosted)
  | .placement => s.told (.placement m.placement)
  | .isServedHere => s.told (.flag true)
  | .write block => s.asked m.layout (written block)
  | .drop => { s with movables := s.movables.erase slot }.asked m.drop fun _ => .done

/-! ## The registry -/

def takeRegistry (s : Session) : RegistryStep → Taken
  | .live => s.told (.count s.registry.live)
  | .isOpen => s.told (.flag s.registry.isOpen)
  | .setGate isOpen =>
      let o := (Registry.setGate isOpen).run s.registry
      ⟨{ s with registry := o.registry }, .done, o.events⟩
  | .write block => s.told (written block s.registry.layout)
  | .loadCreate load limit destroy => s.loaded load (Load.visit limit destroy) Load.harvest

/-! ## All steps -/

/-- Works on what a slot holds, if it holds something. -/
def onSlot (s : Session) (held : Option α) (f : α → Taken) : Taken :=
  held.elim (s.told .vacant) f

/-- Takes a step. -/
def take (s : Session) : Step → Taken
  | .newCounter slot limit => s.putCounter slot (.ok (.fresh limit))
  | .counter slot step => s.onSlot s.counters[slot]? fun c => s.takeCounter slot c step
  | .newLease slot limit => s.takeNewLease slot limit
  | .forgeLease slot l => ⟨{ s with leases := s.leases.insert slot l }, .done, []⟩
  | .lease slot step => s.onSlot s.leases[slot]? fun l => s.takeLease slot l step
  | .newMovable slot limit p => s.takeNewMovable slot limit p
  | .movable slot step => s.onSlot s.movables[slot]? fun m => s.takeMovable slot m step
  | .registry step => s.takeRegistry step

/-- What the slot named by a step shows. -/
def view (s : Session) : Step → Option View
  | .newCounter slot _ => s.viewCounter slot
  | .counter slot _ => s.viewCounter slot
  | .newLease slot _ => s.viewLease slot
  | .forgeLease slot _ => s.viewLease slot
  | .lease slot _ => s.viewLease slot
  | .newMovable slot _ _ => s.viewMovable slot
  | .movable slot _ => s.viewMovable slot
  | .registry _ => none

end Session

end Abacus
