import Abacus.Proofs.Hosting
import Abacus.Session.Run

/-!
# What one owner does

An owner keeps its leases and movable counters at a desk of numbered slots and works on them by
chores. A desk holds only what the host gave to its owner: there is no chore that forges a lease,
and a lease that was given back is no longer in a slot. An errand is a chore or a change of the
gate, and `Desk.perform` is the script of actions that it takes. A session is a desk over a
registry of its own: `Session.agrees_toStep` says that it takes the step of an errand by running
that script.
-/

namespace Abacus

/-- Fills a slot or empties it. -/
def Slots.put {α : Type} (t : Slots α) (slot : Nat) : Option α → Slots α
  | none => t.erase slot
  | some a => t.insert slot a

theorem Slots.getElem?_put {α : Type} (t : Slots α) (slot i : Nat) (a : Option α) :
    (t.put slot a)[i]? = if slot = i then a else t[i]? := by
  cases a with
  | none => simp only [put, Std.ExtTreeMap.getElem?_erase, Nat.compare_eq_eq]
  | some a => simp only [put, Std.ExtTreeMap.getElem?_insert, Nat.compare_eq_eq]

/-- Putting back what a slot holds changes nothing. -/
theorem Slots.put_eq_self {α : Type} {t : Slots α} {slot : Nat} {a : Option α}
    (h : t[slot]? = a) : t.put slot a = t := by
  apply Std.ExtTreeMap.ext_getElem?
  intro i
  rw [getElem?_put]
  split
  · subst slot
    exact h.symm
  · rfl

/-- Of two things put into one slot the last stays. -/
theorem Slots.put_put {α : Type} (t : Slots α) (slot : Nat) (a b : Option α) :
    (t.put slot a).put slot b = t.put slot b := by
  apply Std.ExtTreeMap.ext_getElem?
  intro i
  simp only [getElem?_put]
  split <;> rfl

/-! ## One counter, one lease -/

/-- What the owner of `a` has after an operation that may change it, and the reply to it. -/
def Reply.keep {α : Type} (a : α) : Except Refusal α → Option α × Reply
  | .ok a' => (some a', .done)
  | .error e => (some a, .refused e)

namespace Movable

/-- The lease of a hosted counter. -/
def lease? : Movable → Option Lease
  | hosted l => some l
  | inPlace _ => none

/-- The handle of a hosted counter. -/
def handle? (m : Movable) : Option Handle := m.lease?.map Lease.handle

theorem handle?_of_lease {m : Movable} {l : Lease} (hl : m.lease? = some l) :
    m.handle? = some l.handle := by
  rw [handle?, hl, Option.map_some]

@[simp]
theorem handle?_hosted (l : Lease) : (hosted l).handle? = some l.handle := rfl

@[simp]
theorem handle?_inPlace (c : Counter) : (inPlace c).handle? = none := rfl

/-- Takes a step on the counter. The counter is gone when it was dropped. -/
def perform (m : Movable) : MovableStep → Script Call.Answer (Option Movable × Reply)
  | .add x => do return Reply.keep m (← m.add x)
  | .sub x => do return Reply.keep m (← m.sub x)
  | .move => do return Reply.keep m (← m.move)
  | .read => do return (some m, .amount (← m.read))
  | .limit => return (some m, .amount m.limit)
  | .headroom => do return (some m, .amount (← m.headroom))
  | .isHosted => return (some m, .flag m.placement.isHosted)
  | .placement => return (some m, .placement m.placement)
  | .isServedHere => return (some m, .flag true)
  | .write block => do return (some m, Session.written block (← m.layout))
  | .drop => do
      m.drop
      return (none, .done)

end Movable

/-- What the owner of a lease does with it. -/
inductive LeaseChore
  | add (amount : Amount)
  | sub (amount : Amount)
  | read
  /-- Gives the lease back. -/
  | destroy
  deriving DecidableEq

/-- Takes a step on a lease. The lease is gone when it was given back. -/
def Lease.perform (l : Lease) : LeaseChore → Script Call.Answer (Option Lease × Reply)
  | .add x => do return (some l, .ofAccepted (← l.add x))
  | .sub x => do return (some l, .ofAccepted (← l.sub x))
  | .read => do return (some l, .amount (← l.read))
  | .destroy => do
      l.destroy
      return (none, .done)

/-! ## A desk -/

/-- What an owner does by calls to the host. -/
inductive Chore
  /-- Makes a movable counter for the slot; one that was there is dropped afterwards. -/
  | newMovable (slot : Nat) (limit : Amount) (placement : Placement)
  | movable (slot : Nat) (step : MovableStep)
  /-- Asks for a lease for the slot; one that was there is forgotten. -/
  | newLease (slot : Nat) (limit : Amount)
  | lease (slot : Nat) (step : LeaseChore)
  deriving DecidableEq

/-- A chore, or a change of the gate. -/
inductive Errand
  | chore (q : Chore)
  | setGate (isOpen : Bool)
  deriving DecidableEq

/-- The slots of one owner. -/
structure Desk where
  leases : Slots Lease
  movables : Slots Movable

namespace Desk

def empty : Desk := ⟨∅, ∅⟩

/-- Drops the counter of a slot, if there is one. -/
def vacate (k : Desk) (slot : Nat) : Script Call.Answer Unit :=
  k.movables[slot]?.elim (.done ()) Movable.drop

/-- The calls of a chore; they end with the desk as it is left and the reply. -/
def script (k : Desk) : Chore → Script Call.Answer (Desk × Reply)
  | .newMovable slot limit p => do
      match ← Movable.make limit p with
      | .error e => return (k, .refused e)
      | .ok m =>
          k.vacate slot
          return ({ k with movables := k.movables.put slot (some m) }, .done)
  | .movable slot step =>
      match k.movables[slot]? with
      | none => return (k, .vacant)
      | some m => do
          let (m', reply) ← m.perform step
          return ({ k with movables := k.movables.put slot m' }, reply)
  | .newLease slot limit => do
      match ← Lease.create limit with
      | .error e => return (k, .refused e)
      | .ok l => return ({ k with leases := k.leases.put slot (some l) }, .lease l)
  | .lease slot step =>
      match k.leases[slot]? with
      | none => return (k, .vacant)
      | some l => do
          let (l', reply) ← l.perform step
          return ({ k with leases := k.leases.put slot l' }, reply)

/-- The actions of an errand when a host with distortion `d` answers the calls. -/
def perform (d : Distortion) (k : Desk) : Errand → Script Action.Answer (Desk × Reply)
  | .chore q => d.carryOut (k.script q)
  | .setGate isOpen => (Registry.setGate isOpen).bind fun _ => .done (k, .done)

section

variable {k : Desk} {slot : Nat}

theorem script_movable_of_none (h : k.movables[slot]? = none) (q : MovableStep) :
    k.script (.movable slot q) = .done (k, .vacant) := by
  simp only [script, h]
  rfl

theorem script_movable_of_some {m : Movable} (h : k.movables[slot]? = some m) (q : MovableStep) :
    k.script (.movable slot q) =
      (m.perform q).bind fun p => .done (⟨k.leases, k.movables.put slot p.1⟩, p.2) := by
  simp only [script, h]
  rfl

theorem script_lease_of_none (h : k.leases[slot]? = none) (q : LeaseChore) :
    k.script (.lease slot q) = .done (k, .vacant) := by
  simp only [script, h]
  rfl

theorem script_lease_of_some {l : Lease} (h : k.leases[slot]? = some l) (q : LeaseChore) :
    k.script (.lease slot q) =
      (l.perform q).bind fun p => .done (⟨k.leases.put slot p.1, k.movables⟩, p.2) := by
  simp only [script, h]
  rfl

end

end Desk

/-! ## Handles drawn by an errand -/

section Neutral

namespace Movable

variable (m : Movable)

theorem neutral_read : m.read.Neutral := by
  cases m with
  | hosted l => exact fun _ => trivial
  | inPlace c => trivial

theorem neutral_headroom : m.headroom.Neutral := m.neutral_read.bind fun _ => trivial

theorem neutral_layout : m.layout.Neutral := m.neutral_read.bind fun _ => trivial

theorem neutral_add (x : Amount) : (m.add x).Neutral := by
  cases m with
  | hosted l => exact fun _ => trivial
  | inPlace c => trivial

theorem neutral_sub (x : Amount) : (m.sub x).Neutral := by
  cases m with
  | hosted l => exact fun _ => trivial
  | inPlace c => trivial

theorem neutral_fresh (limit : Amount) (p : Placement) : (fresh limit p).Neutral := by
  cases p with
  | hosted => exact fun _ => trivial
  | inPlace => trivial

theorem neutral_release : m.release.Neutral := by
  cases m with
  | hosted l => exact fun _ => trivial
  | inPlace c => trivial

theorem neutral_drop : m.drop.Neutral := by
  cases m with
  | hosted l => exact ⟨rfl, fun _ => trivial⟩
  | inPlace c => trivial

theorem neutral_make (limit : Amount) (p : Placement) : (make limit p).Neutral := by
  refine (neutral_fresh limit p).bind fun r => ?_
  cases r with
  | error e => trivial
  | ok m => exact ⟨rfl, trivial⟩

theorem neutral_move : m.move.Neutral := by
  refine m.neutral_read.bind fun value => ?_
  refine (neutral_fresh m.limit m.placement.flip).bind fun fresh => ?_
  cases fresh with
  | error e => trivial
  | ok target =>
    refine (target.neutral_add value).bind fun filled => ?_
    cases filled with
    | error e => exact ⟨rfl, target.neutral_release.bind fun _ => trivial⟩
    | ok moved => exact m.neutral_release.bind fun _ => ⟨rfl, trivial⟩

theorem neutral_perform (q : MovableStep) : (m.perform q).Neutral := by
  cases q with
  | add x => exact (m.neutral_add x).bind fun _ => trivial
  | sub x => exact (m.neutral_sub x).bind fun _ => trivial
  | move => exact m.neutral_move.bind fun _ => trivial
  | read => exact m.neutral_read.bind fun _ => trivial
  | headroom => exact m.neutral_headroom.bind fun _ => trivial
  | write block => exact m.neutral_layout.bind fun _ => trivial
  | drop => exact m.neutral_drop.bind fun _ => trivial
  | limit | isHosted | placement | isServedHere => trivial

end Movable

theorem Desk.neutral_script (k : Desk) (q : Chore) : (k.script q).Neutral := by
  cases q with
  | newMovable slot limit p =>
    refine (Movable.neutral_make limit p).bind fun made => ?_
    cases made with
    | error e => trivial
    | ok m =>
      refine Script.Neutral.bind ?_ fun _ => trivial
      unfold vacate
      cases k.movables[slot]? with
      | none => trivial
      | some old => exact old.neutral_drop
  | movable slot q =>
    cases hm : k.movables[slot]? with
    | none =>
      rw [script_movable_of_none hm]
      trivial
    | some m =>
      rw [script_movable_of_some hm]
      exact (m.neutral_perform q).bind fun _ => trivial
  | newLease slot limit =>
    intro answer
    cases answer <;> trivial
  | lease slot q =>
    cases hl : k.leases[slot]? with
    | none =>
      rw [script_lease_of_none hl]
      trivial
    | some l =>
      rw [script_lease_of_some hl]
      cases q <;> exact fun _ => trivial

/-- An errand takes a handle from the sequence for each one that it reports as issued. -/
theorem Desk.draws_perform (d : Distortion) (k : Desk) (q : Errand) (r : Registry) :
    (k.perform d q).draws r = ((k.perform d q).run r).events.countP Event.isIssue := by
  cases q with
  | chore q => exact d.draws_carryOut (k.neutral_script q) r
  | setGate isOpen =>
    by_cases h : r.isOpen = isOpen <;>
      simp [perform, Registry.setGate, Script.bind, Script.draws, Script.run, Registry.act, h,
        Action.draws, Event.isIssue]

end Neutral

/-! ## Errands as steps of a session -/

/-- The same step among the steps on a lease. -/
def LeaseChore.toStep : LeaseChore → LeaseStep
  | add x => .add x
  | sub x => .sub x
  | read => .read
  | destroy => .destroy

/-- The same step among the steps of a session. -/
def Errand.toStep : Errand → Step
  | chore (.newMovable slot limit p) => .newMovable slot limit p
  | chore (.movable slot step) => .movable slot step
  | chore (.newLease slot limit) => .newLease slot limit
  | chore (.lease slot step) => .lease slot step.toStep
  | setGate isOpen => .registry (.setGate isOpen)

namespace Session

variable {α β : Type}

/-- The desk of a session's leases and movable counters. -/
def desk (s : Session) : Desk := ⟨s.leases, s.movables⟩

/-- The session with its registry and desk in a new state. -/
def resume (s : Session) (r : Registry) (k : Desk) : Session :=
  { s with registry := r, leases := k.leases, movables := k.movables }

/-- The step that was taken is the one that the script `p` describes, unless that meets a dead
handle. -/
def Agrees (s : Session) (t : Taken) (p : Script Action.Answer (Desk × Reply)) : Prop :=
  t.events = (p.run s.registry).events ∧
    ∀ k reply, (p.run s.registry).result = .ok (k, reply) →
      t.session = s.resume (p.run s.registry).registry k ∧ t.reply = reply

theorem agrees_call {s : Session} {t : Taken} (c : Script Call.Answer α) (f : α → Desk × Reply)
    (hevents : t.events = (s.call c).events)
    (hok : ∀ a, (s.call c).result = .ok a →
      t.session = s.resume (s.call c).registry (f a).1 ∧ t.reply = (f a).2) :
    s.Agrees t (s.distortion.carryOut (c.bind fun a => .done (f a))) := by
  have hrun : (s.distortion.carryOut (c.bind fun a => .done (f a))).run s.registry =
      ⟨(s.call c).result.map f, (s.call c).registry, (s.call c).events⟩ := by
    rw [Distortion.carryOut_bind, Script.run_bind, Outcome.andThen, ← call]
    cases (s.call c).result with
    | error e => rfl
    | ok a => simp [Distortion.carryOut, Script.interpret, Script.run, Except.map]
  rw [Agrees, hrun]
  refine ⟨hevents, fun k reply hresult => ?_⟩
  cases hc : (s.call c).result with
  | error e =>
    rw [hc] at hresult
    cases hresult
  | ok a =>
    rw [hc] at hresult
    have hf : f a = (k, reply) := Except.ok.inj hresult
    have := hok a hc
    rwa [hf] at this

section Movable

variable {s : Session} {slot : Nat} {m : Movable}

/-- An operation that may change the counter in a slot. -/
theorem agrees_changed (hm : s.movables[slot]? = some m)
    (c : Script Call.Answer (Except Refusal Movable)) :
    s.Agrees (s.changed slot c) (s.distortion.carryOut
      ((c.bind fun r => .done (Reply.keep m r)).bind fun p =>
        .done (⟨s.leases, s.movables.put slot p.1⟩, p.2))) := by
  rw [Script.bind_assoc]
  apply agrees_call
  · simp only [changed]
    split <;> rfl
  · intro r hr
    cases r with
    | error e =>
      simp only [changed, hr, Reply.keep, Slots.put_eq_self hm]
      exact ⟨rfl, trivial⟩
    | ok m' =>
      simp only [changed, hr]
      exact ⟨rfl, rfl⟩

/-- A question about the counter in a slot. -/
theorem agrees_asked (hm : s.movables[slot]? = some m) (c : Script Call.Answer α)
    (reply : α → Reply) :
    s.Agrees (s.asked c reply) (s.distortion.carryOut
      ((c.bind fun a => .done (some m, reply a)).bind fun p =>
        .done (⟨s.leases, s.movables.put slot p.1⟩, p.2))) := by
  rw [Script.bind_assoc]
  apply agrees_call
  · rfl
  · intro a ha
    simp only [asked, ha, Slots.put_eq_self hm]
    exact ⟨rfl, rfl⟩

theorem agrees_movable (s : Session) (slot : Nat) (q : MovableStep) :
    s.Agrees (s.take (.movable slot q))
      (s.desk.perform s.distortion (.chore (.movable slot q))) := by
  rw [Desk.perform]
  cases hm : s.movables[slot]? with
  | none =>
    rw [Desk.script_movable_of_none (k := s.desk) hm]
    simp only [take, onSlot, hm, Option.elim]
    refine ⟨rfl, fun k reply h => ?_⟩
    cases h
    exact ⟨rfl, rfl⟩
  | some m =>
    rw [Desk.script_movable_of_some (k := s.desk) hm]
    simp only [take, onSlot, hm, Option.elim]
    cases q with
    | add x => exact agrees_changed hm (m.add x)
    | sub x => exact agrees_changed hm (m.sub x)
    | move => exact agrees_changed hm m.move
    | read => exact agrees_asked hm m.read .amount
    | headroom => exact agrees_asked hm m.headroom .amount
    | write block => exact agrees_asked hm m.layout (written block)
    | limit => exact agrees_asked hm (.done ()) fun _ => .amount m.limit
    | isHosted => exact agrees_asked hm (.done ()) fun _ => .flag m.placement.isHosted
    | placement => exact agrees_asked hm (.done ()) fun _ => .placement m.placement
    | isServedHere => exact agrees_asked hm (.done ()) fun _ => .flag true
    | drop =>
      show s.Agrees _ (s.distortion.carryOut ((m.drop.bind _).bind _))
      rw [Script.bind_assoc]
      apply agrees_call
      · rfl
      · intro a ha
        have ha' : (call { s with movables := s.movables.erase slot } m.drop).result = .ok a := ha
        simp only [takeMovable, asked, ha', Reply.ofResult]
        exact ⟨rfl, trivial⟩

end Movable

theorem agrees_newMovable (s : Session) (slot : Nat) (limit : Amount) (p : Placement) :
    s.Agrees (s.take (.newMovable slot limit p))
      (s.desk.perform s.distortion (.chore (.newMovable slot limit p))) := by
  show s.Agrees (s.takeNewMovable slot limit p)
    (s.distortion.carryOut ((Movable.make limit p).bind _))
  rw [Agrees, Distortion.carryOut_bind, Script.run_bind, Outcome.andThen, ← call]
  cases hmake : (s.call (Movable.make limit p)).result with
  | error d =>
    refine ⟨?_, fun k reply h => by cases h⟩
    simp only [takeNewMovable, changed, hmake]
  | ok made =>
    cases made with
    | error e =>
      refine ⟨?_, fun k reply h => ?_⟩
      · simp [takeNewMovable, changed, hmake, Script.pure_eq, Distortion.carryOut, Script.interpret,
          Script.run]
      · cases h
        simp only [takeNewMovable, changed, hmake]
        exact ⟨rfl, trivial⟩
    | ok m =>
      cases hold : s.movables[slot]? with
      | none =>
        simp only [takeNewMovable, changed, hmake, desk, Desk.vacate, hold]
        refine ⟨?_, fun k reply h => ?_⟩
        · simp [Script.pure_eq, Script.bind_eq, Script.bind, Distortion.carryOut, Script.interpret,
            Script.run]
        · cases h
          exact ⟨rfl, rfl⟩
      | some old =>
        let s' : Session :=
          { s with registry := (s.call (Movable.make limit p)).registry
                   movables := s.movables.insert slot m }
        have hdrop := agrees_call (s := s') (t := s'.asked old.drop fun _ => .done) old.drop
          (fun _ => (s'.desk, .done)) rfl fun a ha => by
            simp only [asked, ha, Reply.ofResult]
            exact ⟨rfl, trivial⟩
        simp only [takeNewMovable, changed, hmake, desk, Desk.vacate, hold]
        exact ⟨congrArg _ hdrop.1, fun k reply h => hdrop.2 k reply h⟩

theorem agrees_newLease (s : Session) (slot : Nat) (limit : Amount) :
    s.Agrees (s.take (.newLease slot limit))
      (s.desk.perform s.distortion (.chore (.newLease slot limit))) := by
  show s.Agrees (s.takeNewLease slot limit) (s.distortion.carryOut ((Lease.create limit).bind _))
  rw [Agrees, Distortion.carryOut_bind, Script.run_bind, Outcome.andThen, ← call]
  cases hlease : (s.call (Lease.create limit)).result with
  | error d =>
    refine ⟨?_, fun k reply h => by cases h⟩
    simp only [takeNewLease, hlease]
  | ok answer =>
    cases answer with
    | error e | ok l =>
      refine ⟨?_, fun k reply h => ?_⟩
      · simp [takeNewLease, hlease, Script.pure_eq, Distortion.carryOut, Script.interpret,
          Script.run]
      · cases h
        simp only [takeNewLease, hlease]
        exact ⟨rfl, trivial⟩

theorem agrees_lease (s : Session) (slot : Nat) (q : LeaseChore) :
    s.Agrees (s.take (.lease slot q.toStep))
      (s.desk.perform s.distortion (.chore (.lease slot q))) := by
  rw [Desk.perform]
  cases hl : s.leases[slot]? with
  | none =>
    rw [Desk.script_lease_of_none (k := s.desk) hl]
    simp only [take, onSlot, hl, Option.elim]
    refine ⟨rfl, fun k reply h => ?_⟩
    cases h
    exact ⟨rfl, rfl⟩
  | some l =>
    have hput : s.desk.leases.put slot (some l) = s.leases := Slots.put_eq_self hl
    rw [Desk.script_lease_of_some (k := s.desk) hl]
    simp only [take, onSlot, hl, Option.elim]
    cases q with
    | add x | sub x | read =>
      show s.Agrees _ (s.distortion.carryOut ((Script.bind _ _).bind _))
      rw [Script.bind_assoc]
      apply agrees_call
      · rfl
      · intro a ha
        simp only [LeaseChore.toStep, takeLease, asked, ha, hput]
        exact ⟨rfl, rfl⟩
    | destroy =>
      show s.Agrees _ (s.distortion.carryOut ((l.destroy.bind _).bind _))
      rw [Script.bind_assoc]
      apply agrees_call
      · rfl
      · intro a ha
        have ha' : (call { s with leases := s.leases.erase slot } l.destroy).result = .ok a := ha
        simp only [LeaseChore.toStep, takeLease, asked, ha', Reply.ofResult]
        exact ⟨rfl, trivial⟩

/-- A session takes the step of an errand by running the errand's script. -/
theorem agrees_toStep (s : Session) (q : Errand) :
    s.Agrees (s.take q.toStep) (s.desk.perform s.distortion q) := by
  cases q with
  | chore q =>
    cases q with
    | newMovable slot limit p => exact s.agrees_newMovable slot limit p
    | movable slot q => exact s.agrees_movable slot q
    | newLease slot limit => exact s.agrees_newLease slot limit
    | lease slot q => exact s.agrees_lease slot q
  | setGate isOpen =>
    rw [Agrees, Desk.perform, Script.run_bind]
    simp only [Errand.toStep, take, takeRegistry, Registry.run_setGate, Outcome.andThen, Script.run,
      List.append_nil]
    refine ⟨trivial, fun k reply h => ?_⟩
    cases h
    exact ⟨rfl, rfl⟩

end Session

end Abacus
