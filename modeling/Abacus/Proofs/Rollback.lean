import Abacus.Proofs.Ownership

/-!
# Moves, done and undone

What the step that moves a counter does to a session, for every distortion of the host: five
equations, one for each way that a move can go. Out of the registry it is the value that was read
and the limit on the lease that decide (`take_move_out`, `take_move_out_of_misfit`). Into the
registry it is the gate and whether additions are rejected (`take_move_in_of_closed`,
`take_move_in_of_rejected`, `take_move_in`); a move that is rejected is undone, and nothing is left
of it but that a handle was drawn. In a session without forged leases a hosted counter has its
handle, so that these are all (`moves_or_stays`).
-/

namespace Abacus

theorem Counter.add_fresh_of_lt {limit x : Amount} (h : limit < x) :
    (fresh limit).add x = .error (.overflow x limit) := by
  have hroom : (fresh limit).headroom = limit := BitVec.sub_zero limit
  rw [add, hroom, if_pos h]
  rfl

namespace Session

variable {s : Session} {slot : Nat} {l : Lease} {c : Counter}

/-! ## The five ways -/

section Out

variable (hm : s.movables[slot]? = some (.hosted l)) (hc : s.registry.table[l.handle]? = some c)
include hm hc

theorem take_move_out {v : Amount} (hv : c.value.satAdd s.distortion.surplus = v)
    (hfits : v ≤ l.limit) :
    s.take (.movable slot .move) =
      ⟨{ s with
          registry := { s.registry with table := s.registry.table.erase l.handle }
          movables := s.movables.insert slot (.inPlace ⟨v, l.limit⟩) },
        .done, [.removed l.handle, .moved v l.limit .hosted .inPlace]⟩ := by
  have hbounded : (⟨v, l.limit⟩ : Counter).Bounded := hfits
  have hcall : s.call (Movable.hosted l).move = _ := s.distortion.run_move_of_live hc
  rw [hv, hbounded.add_fresh] at hcall
  rw [take_move_of_some hm, changed_of_ok slot hcall]

theorem take_move_out_of_misfit {v : Amount} (hv : c.value.satAdd s.distortion.surplus = v)
    (hmisfit : l.limit < v) :
    s.take (.movable slot .move) =
      ⟨s, .refused .misfit, [.misfit v l.limit (.overflow v l.limit)]⟩ := by
  have hcall : s.call (Movable.hosted l).move = _ := s.distortion.run_move_of_live hc
  rw [hv, Counter.add_fresh_of_lt hmisfit] at hcall
  rw [take_move_of_some hm, changed_of_refused hcall]

end Out

section In

variable (hm : s.movables[slot]? = some (.inPlace c))
include hm

theorem take_move_in_of_closed (hclosed : s.registry.isOpen = false) :
    s.take (.movable slot .move) = ⟨s, .refused .closed, [.turnedAway c.limit]⟩ := by
  rw [take_move_of_some hm, changed_of_refused (s.distortion.run_move_of_closed hclosed)]

theorem take_move_in_of_rejected (hd : s.distortion.rejectsAdds = true)
    (hopen : s.registry.isOpen = true) (hfree : ¬ s.registry.IsLive s.registry.next) :
    s.take (.movable slot .move) =
      ⟨{ s with registry := { s.registry with next := s.registry.next.succ } }, .refused .misfit,
        [.issued s.registry.next c.limit,
          .misfit c.value c.limit
            (.overflow c.value (s.distortion.leaseLimit.getD c.limit)),
          .removed s.registry.next]⟩ := by
  have hcall : s.call (Movable.inPlace c).move = _ := s.distortion.run_move_of_rejected hd hopen
  rw [Registry.erase_table_of_none (Registry.table_of_dead hfree)] at hcall
  rw [take_move_of_some hm]
  simp only [changed, hcall]
  rfl

theorem take_move_in (hd : s.distortion.rejectsAdds = false) (hc : c.Bounded)
    (hopen : s.registry.isOpen = true) :
    s.take (.movable slot .move) =
      ⟨{ s with
          registry := s.registry.host c
          movables := s.movables.insert slot
            (.hosted ⟨s.registry.next, s.distortion.leaseLimit.getD c.limit⟩) },
        .done,
        [.issued s.registry.next c.limit, .moved c.value c.limit .inPlace .hosted]⟩ := by
  rw [take_move_of_some hm, changed_of_ok slot (s.distortion.run_move_of_open hd hc hopen)]
  rfl

end In

/-! ## All moves -/

/-- The counter in the slot is hosted, and `v` is read of it. It moves exactly if `v` is within the
limit on its lease: then `v` is its value, and its handle and nothing else is taken out of the
registry. Otherwise all is as before. The gate has no part in it. -/
structure MovesOut (s : Session) (slot : Nat) (l : Lease) (v : Amount) : Prop where
  done_iff : (s.take (.movable slot .move)).reply = .done ↔ v ≤ l.limit
  done : v ≤ l.limit →
    (s.take (.movable slot .move)).session =
      { s with
        registry := { s.registry with table := s.registry.table.erase l.handle }
        movables := s.movables.insert slot (.inPlace ⟨v, l.limit⟩) }
  misfit : l.limit < v →
    (s.take (.movable slot .move)).reply = .refused .misfit ∧
      (s.take (.movable slot .move)).session = s
  gate : ∀ isOpen : Bool,
    let t := (s.take (.registry (.setGate isOpen))).session
    (t.take (.movable slot .move)).reply = (s.take (.movable slot .move)).reply ∧
      (t.take (.movable slot .move)).session =
        ((s.take (.movable slot .move)).session.take (.registry (.setGate isOpen))).session

/-- The counter in the slot is in place. It moves exactly if the gate is open and additions are not
rejected: then it has the next handle, which was free, and `v` is read of it. A move that is
rejected is undone, and costs a handle; one that is turned away changes nothing. -/
structure MovesIn (s : Session) (slot : Nat) (c : Counter) (v : Amount) : Prop where
  closed : s.registry.isOpen = false →
    (s.take (.movable slot .move)).reply = .refused .closed ∧
      (s.take (.movable slot .move)).session = s
  rejected : s.registry.isOpen = true → s.distortion.rejectsAdds = true →
    (s.take (.movable slot .move)).reply = .refused .misfit ∧
      (s.take (.movable slot .move)).session =
        { s with registry := { s.registry with next := s.registry.next.succ } }
  done : s.registry.isOpen = true → s.distortion.rejectsAdds = false →
    let t := s.take (.movable slot .move)
    let limit := s.distortion.leaseLimit.getD c.limit
    t.reply = .done ∧ ¬ s.registry.IsLive s.registry.next ∧
      t.session =
        { s with
          registry := s.registry.host c
          movables := s.movables.insert slot (.hosted ⟨s.registry.next, limit⟩) } ∧
      (t.session.take (.movable slot .read)).reply = .amount v ∧
      (t.session.take (.movable slot .limit)).reply = .amount limit

theorem take_setGate (s : Session) (isOpen : Bool) :
    (s.take (.registry (.setGate isOpen))).session =
      { s with registry := { s.registry with isOpen } } := by
  simp only [take, takeRegistry, Registry.run_setGate]

theorem movesOut_of_live (hm : s.movables[slot]? = some (.hosted l))
    (hc : s.registry.table[l.handle]? = some c) :
    s.MovesOut slot l (c.value.satAdd s.distortion.surplus) where
  done_iff := by
    by_cases hfits : c.value.satAdd s.distortion.surplus ≤ l.limit
    · simp [take_move_out hm hc rfl hfits, hfits]
    · simp [take_move_out_of_misfit hm hc rfl (BitVec.not_le.1 hfits), hfits]
  done hfits := by rw [take_move_out hm hc rfl hfits]
  misfit hmisfit := by
    rw [take_move_out_of_misfit hm hc rfl hmisfit]
    exact ⟨rfl, rfl⟩
  gate isOpen := by
    intro t
    have ht : t = { s with registry := { s.registry with isOpen } } := s.take_setGate isOpen
    have hm' : t.movables[slot]? = some (.hosted l) := ht ▸ hm
    have hc' : t.registry.table[l.handle]? = some c := ht ▸ hc
    have hv : c.value.satAdd t.distortion.surplus = c.value.satAdd s.distortion.surplus := by
      rw [ht]
    by_cases hfits : c.value.satAdd s.distortion.surplus ≤ l.limit
    · rw [take_move_out hm hc rfl hfits, take_move_out hm' hc' hv hfits, take_setGate, ht]
      exact ⟨rfl, rfl⟩
    · have hmisfit := BitVec.not_le.1 hfits
      rw [take_move_out_of_misfit hm hc rfl hmisfit, take_move_out_of_misfit hm' hc' hv hmisfit]
      exact ⟨rfl, rfl⟩

theorem movesIn_of_free (hm : s.movables[slot]? = some (.inPlace c)) (hc : c.Bounded)
    (hfree : ¬ s.registry.IsLive s.registry.next) :
    s.MovesIn slot c (c.value.satAdd s.distortion.surplus) where
  closed hclosed := by
    rw [take_move_in_of_closed hm hclosed]
    exact ⟨rfl, rfl⟩
  rejected hopen hd := by
    rw [take_move_in_of_rejected hm hd hopen hfree]
    exact ⟨rfl, rfl⟩
  done hopen hd := by
    intro t limit
    have ht := take_move_in hm hd hc hopen
    have hslot : t.session.movables[slot]? = some (.hosted ⟨s.registry.next, limit⟩) := by
      simp only [t, ht]
      exact s.getElem?_movables_insert slot _
    have hhosted : t.session.registry.table[s.registry.next]? = some c := by
      simp only [t, ht]
      rw [Registry.getElem?_host, if_pos rfl]
    have hread : t.session.call (Movable.hosted ⟨s.registry.next, limit⟩).read = _ :=
      t.session.distortion.run_read_of_live hhosted
    refine ⟨congrArg Taken.reply ht, hfree, congrArg Taken.session ht, ?_, ?_⟩
    · rw [take_movable_of_some hslot, takeMovable, asked, hread]
      simp only [t, ht, Reply.ofResult]
    · rw [take_movable_of_some hslot]
      rfl

theorem toNat_reading (c : Counter) (d : Distortion) :
    (c.value.satAdd d.surplus).toNat = min (c.value.toNat + d.surplus.toNat) (2 ^ 128 - 1) :=
  Amount.toNat_satAdd c.value d.surplus

/-- In a session without forged leases, before any host and up to the end of the range of handles,
every hosted counter has its handle, and every move is done or undone as the host's answers have
it. -/
theorem moves_or_stays (d : Distortion) (isOpen : Bool) (qs : List Step)
    (hgenuine : ∀ q ∈ qs, q.forges = false) (hn : (start d isOpen).draws qs < 2 ^ 64) :
    let s := (start d isOpen).reach qs
    (∀ (slot : Nat) (l : Lease), s.movables[slot]? = some (.hosted l) →
      ∃ c v, s.registry.table[l.handle]? = some c ∧
        v.toNat = min (c.value.toNat + d.surplus.toNat) (2 ^ 128 - 1) ∧ s.MovesOut slot l v) ∧
    ∀ (slot : Nat) (c : Counter), s.movables[slot]? = some (.inPlace c) →
      ∃ v, v.toNat = min (c.value.toNat + d.surplus.toNat) (2 ^ 128 - 1) ∧ s.MovesIn slot c v := by
  intro s
  obtain ⟨forged, hs⟩ :=
    (tended_start d isOpen).reach qs (by omega) (returnsOwn_of_genuine hgenuine)
  rw [Nat.zero_add] at hs
  have hd : s.distortion = d := (start d isOpen).distortion_reach qs
  refine ⟨fun slot l hm => ?_, fun slot c hm => ?_⟩
  · obtain ⟨c, hc⟩ := Registry.isLive_iff.1 (hs.attached hm)
    refine ⟨c, _, hc, toNat_reading c d, ?_⟩
    rw [← hd]
    exact movesOut_of_live hm hc
  · refine ⟨_, toNat_reading c d, ?_⟩
    rw [← hd]
    exact movesIn_of_free hm (hs.sound.movables slot _ hm) (hs.rests.next_free hn)

/-- A host reads three too much and writes nine on every lease. A counter with limit five then moves
out with the value eight, and one that moved in with the value twenty does not come out again. At a
host that rejects additions a move into the registry costs a handle and leaves the table alone. -/
theorem moves_or_stays_of_surplus :
    let d : Distortion := ⟨false, 3#128, some 9#128⟩
    let qs : List Step :=
      [.newMovable 0 5#128 .hosted, .newMovable 1 20#128 .inPlace, .movable 0 (.add 5#128),
        .registry (.loadCreate ⟨2, 1⟩ 4#128 false), .movable 1 (.add 20#128), .movable 1 .move,
        .registry (.setGate false)]
    let s := (start d true).reach qs
    let d' : Distortion := ⟨true, 0#128, none⟩
    let qs' : List Step :=
      [.newLease 0 6#128, .newMovable 0 10#128 .inPlace, .movable 0 (.add 10#128)]
    let s' := (start d' true).reach qs'
    (∀ q ∈ qs, q.forges = false) ∧ (start d true).draws qs = 4 ∧
    (s.take (.movable 0 .move)).session.movables[0]? = some (.inPlace ⟨8#128, 9#128⟩) ∧
    (s.take (.movable 1 .move)).reply = .refused .misfit ∧
    (s.take (.movable 1 .move)).session = s ∧
    (∀ q ∈ qs', q.forges = false) ∧ (start d' true).draws qs' = 1 ∧
    (s'.take (.movable 0 .move)).reply = .refused .misfit ∧
    (s'.take (.movable 0 .move)).session =
      { s' with registry := { s'.registry with next := ⟨2#64⟩ } } := by
  intro d qs s d' qs' s'
  have hgenuine : ∀ q ∈ qs, q.forges = false := by decide
  have hgenuine' : ∀ q ∈ qs', q.forges = false := by decide
  have hdraws : (start d true).draws qs = 4 := by decide +kernel
  have hdraws' : (start d' true).draws qs' = 1 := by decide +kernel
  obtain ⟨hout, -⟩ := moves_or_stays d true qs hgenuine (by rw [hdraws]; decide)
  obtain ⟨-, hin⟩ := moves_or_stays d' true qs' hgenuine' (by rw [hdraws']; decide)
  -- The first counter is read as eight, the second as twenty-three.
  obtain ⟨c, v, hc, hv, hfirst⟩ := hout 0 ⟨⟨0#64⟩, 9#128⟩ (by decide +kernel)
  have hc' : s.registry.table[(⟨0#64⟩ : Handle)]? = some ⟨5#128, 5#128⟩ := by decide +kernel
  cases hc.symm.trans hc'
  have hv' : v = 8#128 := BitVec.eq_of_toNat_eq (hv.trans (by decide))
  obtain ⟨b, w, hb, hw, hsecond⟩ := hout 1 ⟨⟨3#64⟩, 9#128⟩ (by decide +kernel)
  have hb' : s.registry.table[(⟨3#64⟩ : Handle)]? = some ⟨20#128, 20#128⟩ := by decide +kernel
  cases hb.symm.trans hb'
  have hw' : w = 23#128 := BitVec.eq_of_toNat_eq (hw.trans (by decide))
  subst hv' hw'
  obtain ⟨hreply, hsession⟩ := hsecond.misfit (by decide)
  obtain ⟨v', -, hthird⟩ := hin 0 ⟨10#128, 10#128⟩ (by decide +kernel)
  obtain ⟨hreply', hsession'⟩ := hthird.rejected (by decide +kernel) (by decide +kernel)
  have hnext : s'.registry.next.succ = ⟨2#64⟩ := by decide +kernel
  refine ⟨hgenuine, hdraws, ?_, hreply, hsession, hgenuine', hdraws', hreply', hnext ▸ hsession'⟩
  rw [hfirst.done (by decide)]
  exact s.getElem?_movables_insert 0 _

end Session

end Abacus
