import Abacus.Proofs.Rollback

/-!
# Counters wherever they live

For its owner a movable counter is one counter, whether it is hosted or in place:
`Movable.Carries` says which. At the honest host a move carries the counter over as it is. In a
session up to the end of the range of handles a counter that has its handle is within its limit, and
the limit on its lease is its own (`Session.Labelled.exists_carries`), so that its value fits at the
new place. Of all that makes or moves counters nothing is then refused but a new handle at a closed
gate (`Session.refused_only_if_closed`).
-/

namespace Abacus

open Distortion

/-- An operation is refused because the gate is closed if it is barred, and in no other case; then
it ends with a result as `good` says. -/
structure Gated {α : Type} (barred : Prop) (result : Except DeadHandle (Except Refusal α))
    (good : α → Prop) : Prop where
  fails_iff : (∀ a, result ≠ .ok (.ok a)) ↔ barred
  closed : barred → result = .ok (.error .closed)
  done : ∀ a, result = .ok (.ok a) → good a

namespace Gated

variable {α : Type} {barred : Prop} {good : α → Prop}
  {result : Except DeadHandle (Except Refusal α)}

theorem of_closed (hbarred : barred) (hresult : result = .ok (.error .closed)) :
    Gated barred result good where
  fails_iff := by simp [hresult, hbarred]
  closed _ := hresult
  done a ha := by
    rw [hresult] at ha
    cases ha

theorem of_done (hbarred : ¬ barred) {a : α} (hresult : result = .ok (.ok a)) (ha : good a) :
    Gated barred result good where
  fails_iff := by simp [hresult, hbarred]
  closed hb := absurd hb hbarred
  done b hb := by
    rw [hresult] at hb
    cases hb
    exact ha

theorem exists_done (h : Gated barred result good) (hbarred : ¬ barred) :
    ∃ a, result = .ok (.ok a) ∧ good a := by
  have hsome : ¬ ∀ a, result ≠ .ok (.ok a) := fun hfails => hbarred (h.fails_iff.1 hfails)
  obtain ⟨a, ha⟩ := not_forall.1 hsome
  exact ⟨a, not_not.1 ha, h.done a (not_not.1 ha)⟩

end Gated

namespace Movable

/-- The counter is `c`, hosted or in place; on its lease is its own limit. -/
def Carries (r : Registry) (c : Counter) : Movable → Prop
  | hosted l => r.table[l.handle]? = some c ∧ l.limit = c.limit
  | inPlace c' => c' = c

variable {r : Registry} {c : Counter} {m : Movable}

theorem Carries.limit_eq (hm : m.Carries r c) : m.limit = c.limit := by
  cases m with
  | hosted l => exact hm.2
  | inPlace c' => exact congrArg Counter.limit hm

theorem Carries.run_read (hm : m.Carries r c) :
    (honest.carryOut m.read).run r = ⟨.ok c.value, r, []⟩ := by
  cases m with
  | hosted l => exact Lease.run_read_of_live hm.1
  | inPlace c' =>
    cases hm
    rfl

theorem carries_insert (r : Registry) (h k : Handle) (c : Counter) :
    (hosted ⟨h, c.limit⟩).Carries { r with next := k, table := r.table.insert h c } c :=
  ⟨(Registry.getElem?_table_insert ..).trans (if_pos rfl), rfl⟩

/-- The value of a counter within its limit fits at the other place, and the counter is there what
it was. -/
theorem Carries.gated_move (hm : m.Carries r c) (hc : c.Bounded) :
    Gated (m.placement = .inPlace ∧ r.isOpen = false) ((honest.carryOut m.move).run r).result
      fun m' => m'.placement = m.placement.flip ∧
        m'.Carries ((honest.carryOut m.move).run r).registry c := by
  cases m with
  | hosted l =>
    obtain ⟨hlive, hlimit⟩ := hm
    have hrun := run_move_of_live hlive
    rw [hlimit, hc.add_fresh] at hrun
    rw [hrun]
    exact .of_done (fun hbarred => by cases hbarred.1) rfl ⟨rfl, rfl⟩
  | inPlace c' =>
    cases hm
    cases hopen : r.isOpen with
    | false =>
      rw [run_move_of_closed hopen]
      exact .of_closed ⟨rfl, rfl⟩ rfl
    | true =>
      rw [run_move_of_open hc hopen]
      exact .of_done (fun hbarred => by cases hbarred.2) rfl ⟨rfl, carries_insert r r.next _ c⟩

theorem gated_make (r : Registry) (limit : Amount) (p : Placement) :
    Gated (p = .hosted ∧ r.isOpen = false) ((honest.carryOut (make limit p)).run r).result
      fun m => m.placement = p ∧
        m.Carries ((honest.carryOut (make limit p)).run r).registry (.fresh limit) := by
  cases p with
  | inPlace => exact .of_done (fun hbarred => by cases hbarred.1) rfl ⟨rfl, rfl⟩
  | hosted =>
    cases hopen : r.isOpen with
    | false =>
      rw [run_make_of_closed hopen]
      exact .of_closed ⟨rfl, rfl⟩ rfl
    | true =>
      rw [run_make_of_open hopen]
      exact .of_done (fun hbarred => by cases hbarred.2) rfl
        ⟨rfl, carries_insert r r.next _ (.fresh limit)⟩

end Movable

theorem Lease.gated_create (r : Registry) (limit : Amount) :
    Gated (r.isOpen = false) ((honest.carryOut (create limit)).run r).result
      fun l => l = ⟨r.next, limit⟩ ∧
        ((honest.carryOut (create limit)).run r).registry = r.host (.fresh limit) := by
  cases hopen : r.isOpen with
  | false =>
    rw [run_create_of_closed hopen]
    exact .of_closed rfl rfl
  | true =>
    rw [run_create_of_open hopen]
    exact .of_done (by simp) rfl ⟨rfl, rfl⟩

namespace Session

variable {s : Session} {n : Nat}

theorem Labelled.exists_carries (hs : s.Labelled n) {slot : Nat} {m : Movable}
    (hm : s.movables[slot]? = some m) (hattached : m.Attached s.registry) :
    ∃ c, m.Carries s.registry c ∧ c.Bounded := by
  cases m with
  | inPlace c => exact ⟨c, rfl, hs.registered.sound.movables slot _ hm⟩
  | hosted l =>
    obtain ⟨c, hc⟩ := Registry.isLive_iff.1 hattached
    refine ⟨c, ⟨hc, hs.limit_eq slot l c.limit hm ?_⟩, hs.registered.sound.registry l.handle c hc⟩
    rw [Registry.limit?, hc]
    rfl

/-- The counter in the slot is shown as `c`. -/
def Shows (s : Session) (slot : Nat) (c : Counter) : Prop :=
  (s.take (.movable slot .read)).reply = .amount c.value ∧
    (s.take (.movable slot .limit)).reply = .amount c.limit

instance (s : Session) (slot : Nat) (c : Counter) : Decidable (s.Shows slot c) :=
  inferInstanceAs (Decidable (_ ∧ _))

theorem Shows.unique {slot : Nat} {b c : Counter} (hb : s.Shows slot b) (hc : s.Shows slot c) :
    b = c := by
  ext1
  · exact Reply.amount.inj (hb.1.symm.trans hc.1)
  · exact Reply.amount.inj (hb.2.symm.trans hc.2)

theorem shows_of_carries (hd : s.distortion = .honest) {slot : Nat} {m : Movable}
    (hm : s.movables[slot]? = some m) {c : Counter} (hcarries : m.Carries s.registry c) :
    s.Shows slot c := by
  have hread : s.call m.read = ⟨.ok c.value, s.registry, []⟩ := by
    rw [call, hd]
    exact hcarries.run_read
  refine ⟨?_, ?_⟩
  · rw [take_movable_of_some hm, takeMovable, asked, hread]
    rfl
  · rw [take_movable_of_some hm, takeMovable, hcarries.limit_eq]
    rfl

/-- At the honest host, as long as no forged lease is given back and the sequence of handles has not
come round, nothing that makes or moves a counter is refused but a new handle at a closed gate. A
counter that moves, of whatever limit and value, is at the new place what it was at the old one. -/
theorem refused_only_if_closed (isOpen : Bool) (qs : List Step)
    (hown : (start .honest isOpen).ReturnsOwn [] qs)
    (hn : (start .honest isOpen).draws qs ≤ 2 ^ 64) :
    let s := (start .honest isOpen).reach qs
    (∀ limit : Amount,
      Gated (s.registry.isOpen = false) (s.call (Lease.create limit)).result fun l =>
        l = ⟨s.registry.next, limit⟩ ∧
          (s.call (Lease.create limit)).registry = s.registry.host (.fresh limit)) ∧
    (∀ (limit : Amount) (p : Placement),
      Gated (p = .hosted ∧ s.registry.isOpen = false) (s.call (Movable.make limit p)).result
        fun m => m.placement = p ∧
          m.Carries (s.call (Movable.make limit p)).registry (.fresh limit)) ∧
    ∀ (slot : Nat) (m : Movable), s.movables[slot]? = some m →
      ∃ c, m.Carries s.registry c ∧ c.Bounded ∧
        Gated (m.placement = .inPlace ∧ s.registry.isOpen = false) (s.call m.move).result
          fun m' => m'.placement = m.placement.flip ∧ m'.Carries (s.call m.move).registry c := by
  intro s
  have hlabelled : s.Labelled _ := (labelled_start isOpen).reach qs (by omega)
  obtain ⟨forged, htended⟩ := (tended_start .honest isOpen).reach qs (by omega) hown
  have hcall {α : Type} (c : Script Call.Answer α) :
      s.call c = (honest.carryOut c).run s.registry := by
    rw [call, hlabelled.registered.distortion]
  simp only [hcall]
  refine ⟨Lease.gated_create s.registry, Movable.gated_make s.registry, fun slot m hm => ?_⟩
  obtain ⟨c, hcarries, hbounded⟩ := hlabelled.exists_carries hm (htended.attached hm)
  exact ⟨c, hcarries, hbounded, hcarries.gated_move hbounded⟩

/-- A forged lease fills a hosted counter up to the largest amount, through threads too. Then the
gate is closed: the hosted counter comes out all the same, and one in place does not go in. -/
theorem refused_only_if_closed_of_forged_lease :
    let top := Amount.greatest
    let qs : List Step :=
      [.newMovable 0 top .hosted, .forgeLease 5 ⟨⟨0#64⟩, 1#128⟩, .lease 5 (.add (top - 2)),
        .lease 5 (.loadAdd ⟨2, 2⟩ 1#128), .newMovable 1 top .inPlace, .movable 1 (.add top),
        .registry (.setGate false)]
    let s := (start .honest true).reach qs
    let m : Movable := .hosted ⟨⟨0#64⟩, top⟩
    (start .honest true).ReturnsOwn [] qs ∧ (start .honest true).draws qs = 1 ∧
    s.movables[0]? = some m ∧
    (∃ m', (s.call m.move).result = .ok (.ok m') ∧ m'.placement = .inPlace ∧
      m'.Carries (s.call m.move).registry ⟨top, top⟩) ∧
    (s.call (Movable.inPlace ⟨top, top⟩).move).result = .ok (.error .closed) ∧
    (s.call (Lease.create 0#128)).result = .ok (.error .closed) := by
  intro top qs s m
  have hown : (start .honest true).ReturnsOwn [] qs := by decide +kernel
  have hdraws : (start .honest true).draws qs = 1 := by decide +kernel
  have hm : s.movables[0]? = some m := by decide +kernel
  have hvalue : s.registry.table[(⟨0#64⟩ : Handle)]? = some ⟨top, top⟩ := by decide +kernel
  have hclosed : s.registry.isOpen = false := by decide +kernel
  obtain ⟨hcreate, -, hmove⟩ := refused_only_if_closed true qs hown (by rw [hdraws]; decide)
  obtain ⟨c, hcarries, -, hout⟩ := hmove 0 m hm
  cases hcarries.1.symm.trans hvalue
  obtain ⟨c', hcarries', -, hin⟩ := hmove 1 (.inPlace ⟨top, top⟩) (by decide +kernel)
  have hfree : ¬ (m.placement = .inPlace ∧ s.registry.isOpen = false) := by
    simp [m, Movable.placement]
  exact ⟨hown, hdraws, hm, hout.exists_done hfree, hin.closed ⟨rfl, hclosed⟩,
    (hcreate 0#128).closed hclosed⟩

end Session

end Abacus
