import Abacus.Proofs.Hosting
import Abacus.Proofs.Sound

/-!
# Operations at a distorted host

What each operation on a lease or a movable counter ends with, leaves behind and reports when a
host carries it out alone, for every distortion of it. The lemmas have one case for each way that
an operation can go. A move out of the registry depends on what is read and on the limit of the
lease, and never on the gate (`run_move_of_live`). A move into the registry is turned away at a
closed gate (`run_move_of_closed`); at an open one it goes through (`run_move_of_open`) unless
additions are rejected, and then the counter that was placed for it is taken out again
(`run_move_of_rejected`).
-/

namespace Abacus

/-! ## Chaining -/

namespace Outcome

variable {α β : Type} (f : α → Registry → Outcome β)

theorem andThen_ok (a : α) (r : Registry) (es : List Event) :
    (⟨.ok a, r, es⟩ : Outcome α).andThen f =
      ⟨(f a r).result, (f a r).registry, es ++ (f a r).events⟩ := rfl

end Outcome

section Chaining

variable {α β : Type} (d : Distortion) (s : Script Call.Answer α) (r : Registry)

theorem Distortion.run_carryOut_bind (f : α → Script Call.Answer β) :
    (d.carryOut (s.bind f)).run r =
      ((d.carryOut s).run r).andThen fun a => (d.carryOut (f a)).run := by
  rw [carryOut_bind, Script.run_bind]

/-- Making something of the result changes nothing else. -/
theorem Distortion.run_carryOut_map (f : α → β) :
    (d.carryOut (s.bind fun a => .done (f a))).run r =
      ⟨((d.carryOut s).run r).result.map f, ((d.carryOut s).run r).registry,
        ((d.carryOut s).run r).events⟩ := by
  rw [run_carryOut_bind, Outcome.andThen]
  cases ((d.carryOut s).run r).result with
  | error e => rfl
  | ok a => simp [carryOut, Script.interpret, Script.run, Except.map]

theorem Distortion.run_emit (e : Event) : (d.carryOut (Script.emit e)).run r = ⟨.ok (), r, [e]⟩ :=
  rfl

end Chaining

namespace Registry

variable {r : Registry} {h : Handle}

theorem find_of_none (hc : r.table[h]? = none) : r.find h = .error ⟨h⟩ := by
  simp [find, hc]

theorem insert_insert_table (table : Std.ExtTreeMap Handle Counter) (h : Handle) (b c : Counter) :
    (table.insert h b).insert h c = table.insert h c := by
  apply Std.ExtTreeMap.ext_getElem?
  intro k
  simp only [getElem?_table_insert]
  split <;> rfl

theorem erase_insert_table (table : Std.ExtTreeMap Handle Counter) (h : Handle) (c : Counter) :
    (table.insert h c).erase h = table.erase h := by
  apply Std.ExtTreeMap.ext_getElem?
  intro k
  simp only [getElem?_table_insert, getElem?_table_erase]
  split <;> rfl

theorem erase_table_of_none {table : Std.ExtTreeMap Handle Counter} (hfree : table[h]? = none) :
    table.erase h = table := by
  apply Std.ExtTreeMap.ext_getElem?
  intro k
  rw [getElem?_table_erase]
  split
  · rename_i heq
    rw [← heq, hfree]
  · rfl

end Registry

namespace Distortion

variable (d : Distortion) {r : Registry} {l : Lease} {c : Counter}

/-! ## Calls -/

theorem run_create_of_open (h : r.isOpen = true) (limit : Amount) :
    (d.carryOut (Lease.create limit)).run r =
      ⟨.ok (.ok (d.relabel ⟨r.next, limit⟩)),
        { r with next := r.next.succ, table := r.table.insert r.next (.fresh limit) },
        [.issued r.next limit]⟩ := by
  simp [carryOut, serve, distort, Lease.create, Script.query, Script.interpret, Call.serve,
    Script.bind, Registry.issue, Script.run, Registry.act, h, Except.map]

theorem run_create_of_closed (h : r.isOpen = false) (limit : Amount) :
    (d.carryOut (Lease.create limit)).run r =
      ⟨.ok (.error .closed), r, [.turnedAway limit]⟩ := by
  simp [carryOut, serve, distort, Lease.create, Script.query, Script.interpret, Call.serve,
    Script.bind, Registry.issue, Script.run, Registry.act, h, Except.map]

theorem run_add_of_rejected (h : d.rejectsAdds = true) (l : Lease) (x : Amount) (r : Registry) :
    (d.carryOut (l.add x)).run r = ⟨.ok (.error (.overflow x l.limit)), r, []⟩ := by
  simp [carryOut, serve, distort, h, Lease.add, Script.query, Script.interpret, Script.bind,
    Script.run]

theorem run_add_of_live (h : d.rejectsAdds = false) (hc : r.table[l.handle]? = some c)
    (x : Amount) :
    (d.carryOut (l.add x)).run r =
      ⟨.ok (r.put l.handle (c.add x)).1, (r.put l.handle (c.add x)).2, []⟩ := by
  simp [carryOut, serve, distort, h, Lease.add, Script.query, Script.interpret, Call.serve,
    Script.bind, Script.run, Registry.act, Registry.find_eq_ok_iff.2 hc, Except.map]

theorem run_sub_of_live (hc : r.table[l.handle]? = some c) (x : Amount) :
    (d.carryOut (l.sub x)).run r =
      ⟨.ok (r.put l.handle (c.sub x)).1, (r.put l.handle (c.sub x)).2, []⟩ := by
  simp [carryOut, serve, distort, Lease.sub, Script.query, Script.interpret, Call.serve,
    Script.bind, Script.run, Registry.act, Registry.find_eq_ok_iff.2 hc, Except.map]

theorem run_read_of_live (hc : r.table[l.handle]? = some c) :
    (d.carryOut l.read).run r = ⟨.ok (c.value.satAdd d.surplus), r, []⟩ := by
  simp [carryOut, serve, distort, Lease.read, Script.query, Script.interpret, Call.serve,
    Script.bind, Script.run, Registry.act, Registry.find_eq_ok_iff.2 hc, Except.map]

theorem run_destroy_of_live (hc : r.table[l.handle]? = some c) :
    (d.carryOut l.destroy).run r =
      ⟨.ok (), { r with table := r.table.erase l.handle }, [.removed l.handle]⟩ := by
  simp [carryOut, serve, distort, Lease.destroy, Script.query, Script.interpret, Call.serve,
    Registry.withdraw, Script.bind, Script.run, Registry.act, Registry.find_eq_ok_iff.2 hc,
    Except.map]

theorem run_read_of_dead (hc : r.table[l.handle]? = none) :
    (d.carryOut l.read).run r = ⟨.error ⟨l.handle⟩, r, []⟩ := by
  simp [carryOut, serve, distort, Lease.read, Script.query, Script.interpret, Call.serve,
    Script.bind, Script.run, Registry.act, Registry.find_of_none hc, Except.map]

/-! ## Movable counters -/

open Movable

theorem run_fresh_of_open (h : r.isOpen = true) (limit : Amount) :
    (d.carryOut (fresh limit .hosted)).run r =
      ⟨.ok (.ok (hosted (d.relabel ⟨r.next, limit⟩))),
        { r with next := r.next.succ, table := r.table.insert r.next (.fresh limit) },
        [.issued r.next limit]⟩ := by
  refine (d.run_carryOut_map (Lease.create limit) r (Except.map hosted)).trans ?_
  rw [d.run_create_of_open h]
  rfl

theorem run_fresh_of_closed (h : r.isOpen = false) (limit : Amount) :
    (d.carryOut (fresh limit .hosted)).run r =
      ⟨.ok (.error .closed), r, [.turnedAway limit]⟩ := by
  refine (d.run_carryOut_map (Lease.create limit) r (Except.map hosted)).trans ?_
  rw [d.run_create_of_closed h]
  rfl

theorem run_make_of_open (h : r.isOpen = true) (limit : Amount) :
    (d.carryOut (make limit .hosted)).run r =
      ⟨.ok (.ok (hosted (d.relabel ⟨r.next, limit⟩))),
        { r with next := r.next.succ, table := r.table.insert r.next (.fresh limit) },
        [.issued r.next limit, .made limit .hosted]⟩ := by
  show (d.carryOut ((fresh limit .hosted).bind _)).run r = _
  rw [run_carryOut_bind, d.run_fresh_of_open h]
  rfl

theorem run_make_of_closed (h : r.isOpen = false) (limit : Amount) :
    (d.carryOut (make limit .hosted)).run r = ⟨.ok (.error .closed), r, [.turnedAway limit]⟩ := by
  show (d.carryOut ((fresh limit .hosted).bind _)).run r = _
  rw [run_carryOut_bind, d.run_fresh_of_closed h]
  rfl

theorem run_move_of_dead (hc : r.table[l.handle]? = none) :
    (d.carryOut (hosted l).move).run r = ⟨.error ⟨l.handle⟩, r, []⟩ := by
  show (d.carryOut (l.read.bind _)).run r = _
  rw [run_carryOut_bind, d.run_read_of_dead hc]
  rfl

/-- A move out of the registry takes the value that was read, if the limit of the lease allows
it. -/
theorem run_move_of_live (hc : r.table[l.handle]? = some c) :
    (d.carryOut (hosted l).move).run r =
      match (Counter.fresh l.limit).add (c.value.satAdd d.surplus) with
      | .error e => ⟨.ok (.error .misfit), r, [.misfit (c.value.satAdd d.surplus) l.limit e]⟩
      | .ok c' =>
          ⟨.ok (.ok (inPlace c')), { r with table := r.table.erase l.handle },
            [.removed l.handle, .moved (c.value.satAdd d.surplus) l.limit .hosted .inPlace]⟩ := by
  show (d.carryOut (l.read.bind _)).run r = _
  rw [run_carryOut_bind, d.run_read_of_live hc, Outcome.andThen_ok]
  simp only [Movable.limit, placement, Placement.flip, fresh, add, Script.pure_eq, Script.bind_eq,
    Script.bind]
  cases (Counter.fresh l.limit).add (c.value.satAdd d.surplus) with
  | error e => rfl
  | ok c' =>
    simp only [Except.map, release, run_carryOut_bind, d.run_destroy_of_live hc,
      Outcome.andThen_ok]
    rfl

theorem run_move_of_closed (h : r.isOpen = false) :
    (d.carryOut (inPlace c).move).run r = ⟨.ok (.error .closed), r, [.turnedAway c.limit]⟩ := by
  show (d.carryOut ((fresh c.limit .hosted).bind _)).run r = _
  rw [run_carryOut_bind, d.run_fresh_of_closed h]
  rfl

theorem run_hosted_add_of_rejected (h : d.rejectsAdds = true) (l : Lease) (x : Amount)
    (r : Registry) :
    (d.carryOut ((hosted l).add x)).run r = ⟨.ok (.error (.overflow x l.limit)), r, []⟩ := by
  refine (d.run_carryOut_map (l.add x) r (Except.map fun _ => hosted l)).trans ?_
  rw [d.run_add_of_rejected h]
  rfl

theorem run_hosted_add_of_live (h : d.rejectsAdds = false) (hc : r.table[l.handle]? = some c)
    (x : Amount) :
    (d.carryOut ((hosted l).add x)).run r =
      ⟨.ok ((r.put l.handle (c.add x)).1.map fun _ => hosted l), (r.put l.handle (c.add x)).2,
        []⟩ := by
  refine (d.run_carryOut_map (l.add x) r (Except.map fun _ => hosted l)).trans ?_
  rw [d.run_add_of_live h hc]
  rfl

theorem run_hosted_sub_of_live (hc : r.table[l.handle]? = some c) (x : Amount) :
    (d.carryOut ((hosted l).sub x)).run r =
      ⟨.ok ((r.put l.handle (c.sub x)).1.map fun _ => hosted l), (r.put l.handle (c.sub x)).2,
        []⟩ := by
  refine (d.run_carryOut_map (l.sub x) r (Except.map fun _ => hosted l)).trans ?_
  rw [d.run_sub_of_live hc]
  rfl

theorem run_move_of_open (hd : d.rejectsAdds = false) (hc : c.Bounded) (h : r.isOpen = true) :
    (d.carryOut (inPlace c).move).run r =
      ⟨.ok (.ok (hosted (d.relabel ⟨r.next, c.limit⟩))),
        { r with next := r.next.succ, table := r.table.insert r.next c },
        [.issued r.next c.limit, .moved c.value c.limit .inPlace .hosted]⟩ := by
  show (d.carryOut ((fresh c.limit .hosted).bind _)).run r = _
  rw [run_carryOut_bind, d.run_fresh_of_open h, Outcome.andThen_ok]
  -- The counter that was placed last is found again under its handle, and takes the whole value.
  have hadd := d.run_hosted_add_of_live hd (l := d.relabel ⟨r.next, c.limit⟩)
    (r := { r with next := r.next.succ, table := r.table.insert r.next (.fresh c.limit) })
    ((Registry.getElem?_table_insert ..).trans (if_pos rfl)) c.value
  rw [hc.add_fresh, Registry.put] at hadd
  simp only [Script.bind_eq, run_carryOut_bind, hadd, Outcome.andThen_ok]
  rw [relabel, Registry.insert_insert_table]
  rfl

/-- The counter that was placed for a move is taken out again when it rejects the value. If its
handle was free, nothing is left of the attempt but that the handle was drawn. -/
theorem run_move_of_rejected (hd : d.rejectsAdds = true) (h : r.isOpen = true) :
    (d.carryOut (inPlace c).move).run r =
      ⟨.ok (.error .misfit), { r with next := r.next.succ, table := r.table.erase r.next },
        [.issued r.next c.limit,
          .misfit c.value c.limit (.overflow c.value (d.relabel ⟨r.next, c.limit⟩).limit),
          .removed r.next]⟩ := by
  show (d.carryOut ((fresh c.limit .hosted).bind _)).run r = _
  rw [run_carryOut_bind, d.run_fresh_of_open h, Outcome.andThen_ok]
  have hdestroy := d.run_destroy_of_live (l := d.relabel ⟨r.next, c.limit⟩)
    (r := { r with next := r.next.succ, table := r.table.insert r.next (.fresh c.limit) })
    ((Registry.getElem?_table_insert ..).trans (if_pos rfl))
  simp only [Script.bind_eq, run_carryOut_bind, d.run_hosted_add_of_rejected hd, run_emit,
    Outcome.andThen_ok, release, hdestroy]
  rw [relabel, Registry.erase_insert_table]
  rfl

end Distortion

end Abacus
