import Abacus.Proofs.Distorted

/-!
# Operations at the honest host

What each operation on a lease or a movable counter ends with, leaves behind and reports when the
honest host carries it out alone: what it does at any host, less the distortion. A call through a
lease whose handle is not live fails at once (`Call.run_of_dead`); the other lemmas have one case
for each way that an operation can go. A move into the registry always fits, because a counter in
place is within its limit (`run_move_of_open`); a move out of it may find a value above the limit of
the lease, if the lease was forged or the sequence of handles has come round (`run_move_of_live`).
-/

namespace Abacus

open Distortion

/-! ## Calls -/

section Calls

variable {r : Registry} {l : Lease} {c : Counter}

theorem Call.run_of_dead {q : Call} (hq : q.through? = some l) (hc : r.table[l.handle]? = none) :
    (honest.carryOut (.query q)).run r = ⟨.error ⟨l.handle⟩, r, []⟩ := by
  have hfind := Registry.find_of_none hc
  cases q <;> cases hq <;>
    simp [carryOut_honest, Script.query, Script.interpret, serve, Registry.withdraw, Script.bind,
      Script.run, Registry.act, hfind, Except.map]

namespace Lease

theorem run_create_of_open (h : r.isOpen = true) (limit : Amount) :
    (honest.carryOut (create limit)).run r =
      ⟨.ok (.ok ⟨r.next, limit⟩),
        { r with next := r.next.succ, table := r.table.insert r.next (.fresh limit) },
        [.issued r.next limit]⟩ :=
  honest.run_create_of_open h limit

theorem run_create_of_closed (h : r.isOpen = false) (limit : Amount) :
    (honest.carryOut (create limit)).run r = ⟨.ok (.error .closed), r, [.turnedAway limit]⟩ :=
  honest.run_create_of_closed h limit

theorem run_add_of_live (hc : r.table[l.handle]? = some c) (x : Amount) :
    (honest.carryOut (l.add x)).run r =
      ⟨.ok (r.put l.handle (c.add x)).1, (r.put l.handle (c.add x)).2, []⟩ :=
  honest.run_add_of_live rfl hc x

theorem run_sub_of_live (hc : r.table[l.handle]? = some c) (x : Amount) :
    (honest.carryOut (l.sub x)).run r =
      ⟨.ok (r.put l.handle (c.sub x)).1, (r.put l.handle (c.sub x)).2, []⟩ :=
  honest.run_sub_of_live hc x

theorem run_read_of_live (hc : r.table[l.handle]? = some c) :
    (honest.carryOut l.read).run r = ⟨.ok c.value, r, []⟩ := by
  rw [honest.run_read_of_live hc, honest, Amount.satAdd_zero]

theorem run_destroy_of_live (hc : r.table[l.handle]? = some c) :
    (honest.carryOut l.destroy).run r =
      ⟨.ok (), { r with table := r.table.erase l.handle }, [.removed l.handle]⟩ :=
  honest.run_destroy_of_live hc

end Lease

end Calls

/-! ## Movable counters -/

namespace Movable

variable {r : Registry} {l : Lease} {c : Counter}

theorem run_add_of_live (hc : r.table[l.handle]? = some c) (x : Amount) :
    (honest.carryOut ((hosted l).add x)).run r =
      ⟨.ok ((r.put l.handle (c.add x)).1.map fun _ => hosted l), (r.put l.handle (c.add x)).2,
        []⟩ :=
  honest.run_hosted_add_of_live rfl hc x

theorem run_sub_of_live (hc : r.table[l.handle]? = some c) (x : Amount) :
    (honest.carryOut ((hosted l).sub x)).run r =
      ⟨.ok ((r.put l.handle (c.sub x)).1.map fun _ => hosted l), (r.put l.handle (c.sub x)).2,
        []⟩ :=
  honest.run_hosted_sub_of_live hc x

theorem run_make_of_open (h : r.isOpen = true) (limit : Amount) :
    (honest.carryOut (make limit .hosted)).run r =
      ⟨.ok (.ok (hosted ⟨r.next, limit⟩)),
        { r with next := r.next.succ, table := r.table.insert r.next (.fresh limit) },
        [.issued r.next limit, .made limit .hosted]⟩ :=
  honest.run_make_of_open h limit

theorem run_make_of_closed (h : r.isOpen = false) (limit : Amount) :
    (honest.carryOut (make limit .hosted)).run r =
      ⟨.ok (.error .closed), r, [.turnedAway limit]⟩ :=
  honest.run_make_of_closed h limit

theorem run_move_of_dead (hc : r.table[l.handle]? = none) :
    (honest.carryOut (hosted l).move).run r = ⟨.error ⟨l.handle⟩, r, []⟩ :=
  honest.run_move_of_dead hc

theorem run_move_of_live (hc : r.table[l.handle]? = some c) :
    (honest.carryOut (hosted l).move).run r =
      match (Counter.fresh l.limit).add c.value with
      | .error e => ⟨.ok (.error .misfit), r, [.misfit c.value l.limit e]⟩
      | .ok c' =>
          ⟨.ok (.ok (inPlace c')), { r with table := r.table.erase l.handle },
            [.removed l.handle, .moved c.value l.limit .hosted .inPlace]⟩ := by
  have hvalue : c.value.satAdd honest.surplus = c.value := Amount.satAdd_zero c.value
  have hrun := honest.run_move_of_live hc
  rw [hvalue] at hrun
  exact hrun

theorem run_move_of_closed (h : r.isOpen = false) :
    (honest.carryOut (inPlace c).move).run r =
      ⟨.ok (.error .closed), r, [.turnedAway c.limit]⟩ :=
  honest.run_move_of_closed h

theorem run_move_of_open (hc : c.Bounded) (h : r.isOpen = true) :
    (honest.carryOut (inPlace c).move).run r =
      ⟨.ok (.ok (hosted ⟨r.next, c.limit⟩)),
        { r with next := r.next.succ, table := r.table.insert r.next c },
        [.issued r.next c.limit, .moved c.value c.limit .inPlace .hosted]⟩ :=
  honest.run_move_of_open rfl hc h

end Movable

end Abacus
