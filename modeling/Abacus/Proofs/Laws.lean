import Abacus.Proofs.Trace

/-!
# What a session does to its registry

All that a session does to its registry it does by scripts of calls, by changes of the gate and by
the actions of threads, and what it reports on the way comes from these. A relation between
registries with the events in between is a law of a host (`Distortion.IsLaw`) if it holds of each of
the three and can be chained. A law then holds of every step (`Distortion.IsLaw.take`), of every run
and of the drops at the end of a session. Only the step that asks for handles from other threads is
left out, since the events of threads are not collected.
-/

namespace Abacus

/-! ## Loads of additions and subtractions -/

/-- The action leaves the gate as it is, and the table but for the values in it. -/
def Action.keepsEntries : Action → Bool
  | look => true
  | add .. => true
  | sub .. => true
  | read _ => true
  | _ => false

/-- The call adds to or subtracts from a counter. -/
def Call.changesValue : Call → Bool
  | add .. => true
  | sub .. => true
  | _ => false

theorem Script.Asks.times {Q α : Type} {A : Q → Type} {P : Q → Prop} {s : Script A α}
    (hs : s.Asks P) (n : Nat) : (s.times n).Asks P := by
  induction n with
  | zero => trivial
  | succ n ih =>
    rw [Script.times, List.replicate_succ, List.mapM_cons]
    exact hs.bind fun a => ih.bind fun as => trivial

theorem Load.exists_does_keeping (l : Load) (s : Session) {q : Call} (hq : q.changesValue = true) :
    ∃ es, s.registry.Does es (l.put s (Script.query q)).2 ∧
      ∀ e ∈ es, e.1.keepsEntries = true := by
  refine l.exists_does_put s (P := fun a => a.keepsEntries = true) ?_
  have hquery : (Script.query q : Script Call.Answer q.Answer).Asks
      fun q => q.changesValue = true := ⟨hq, fun _ => trivial⟩
  refine (hquery.times l.times).interpret fun c hc => ?_
  cases c with
  | create limit | read k | destroy k => cases hc
  | add k x =>
    simp only [Distortion.serve, Distortion.distort]
    split
    · trivial
    · exact ⟨rfl, fun _ => trivial⟩
  | sub k x => exact ⟨rfl, fun _ => trivial⟩

/-! ## Laws -/

theorem Session.distortion_changed (s : Session) (slot : Nat)
    (c : Script Call.Answer (Except Refusal Movable)) :
    (s.changed slot c).session.distortion = s.distortion := by
  simp only [changed]
  split <;> rfl

/-- Whether a step asks for handles from other threads. -/
def Step.createsAside : Step → Bool
  | registry (.loadCreate ..) => true
  | _ => false

namespace Distortion

/-- The relation holds between the registry before and the registry after whatever a session does at
the distorted host, with the events in between. -/
structure IsLaw (d : Distortion) (P : Registry → List Event → Registry → Prop) : Prop where
  calls : ∀ {α : Type} {c : Script Call.Answer α} (r : Registry), c.Neutral →
    P r ((d.carryOut c).run r).events ((d.carryOut c).run r).registry
  setGate : ∀ (isOpen : Bool) (r : Registry),
    P r ((Registry.setGate isOpen).run r).events ((Registry.setGate isOpen).run r).registry
  act : ∀ {r r' : Registry} {q : Action} {a : q.Answer}, q.keepsEntries = true →
    r.act q = .ok (a, r') → P r [] r'
  chain : ∀ {r r' r'' : Registry} {es es' : List Event}, P r es r' → P r' es' r'' →
    P r (es ++ es') r''

namespace IsLaw

open Session

variable {α : Type} {P : Registry → List Event → Registry → Prop} {s : Session}

theorem refl {d : Distortion} (hP : d.IsLaw P) (r : Registry) : P r [] r :=
  hP.calls (c := .done ()) r trivial

/-- What threads do together they do by one action after the other. -/
theorem does {d : Distortion} (hP : d.IsLaw P) {r r' : Registry} {es : List Deed}
    (hes : r.Does es r') (hkeeps : ∀ e ∈ es, e.1.keepsEntries = true) : P r [] r' := by
  induction es generalizing r with
  | nil =>
    cases hes
    exact hP.refl _
  | cons e es ih =>
    obtain ⟨mid, hact, hmid⟩ := hes
    have hrest := ih hmid fun e' he' => hkeeps e' (List.mem_cons_of_mem _ he')
    exact hP.chain (hP.act (hkeeps e List.mem_cons_self) hact) hrest

theorem asked (hP : s.distortion.IsLaw P) {c : Script Call.Answer α} (hc : c.Neutral)
    (reply : α → Reply) :
    P s.registry (s.asked c reply).events (s.asked c reply).session.registry :=
  hP.calls s.registry hc

theorem changed (hP : s.distortion.IsLaw P) (slot : Nat)
    {c : Script Call.Answer (Except Refusal Movable)} (hc : c.Neutral) :
    P s.registry (s.changed slot c).events (s.changed slot c).session.registry := by
  have hcall := hP.calls s.registry hc
  simp only [Session.changed]
  split <;> exact hcall

theorem loaded (hP : s.distortion.IsLaw P) (load : Load) {q : Call} (hq : q.changesValue = true) :
    P s.registry [] (load.put s (Script.query q)).2 := by
  obtain ⟨es, hdoes, hes⟩ := load.exists_does_keeping s hq
  exact hP.does hdoes hes

theorem putCounter (hP : s.distortion.IsLaw P) (slot : Nat) (r : Except Refusal Counter) :
    P s.registry (s.putCounter slot r).events (s.putCounter slot r).session.registry := by
  cases r <;> exact hP.refl s.registry

theorem takeCounter (hP : s.distortion.IsLaw P) (slot : Nat) (c : Counter) (q : CounterStep) :
    P s.registry (s.takeCounter slot c q).events (s.takeCounter slot c q).session.registry := by
  cases q with
  | add x | sub x | copy target => exact hP.putCounter _ _
  | read | limit | headroom | equals other | write block | destroy => exact hP.refl s.registry

theorem takeNewLease (hP : s.distortion.IsLaw P) (slot : Nat) (limit : Amount) :
    P s.registry (s.takeNewLease slot limit).events
      (s.takeNewLease slot limit).session.registry := by
  have hcall := hP.calls s.registry (Script.neutral_query (.create limit))
  simp only [Session.takeNewLease]
  split <;> exact hcall

theorem takeLease (hP : s.distortion.IsLaw P) (slot : Nat) (l : Lease) (q : LeaseStep) :
    P s.registry (s.takeLease slot l q).events (s.takeLease slot l q).session.registry := by
  cases q with
  | add x => exact hP.asked (Script.neutral_query (.add l x)) _
  | sub x => exact hP.asked (Script.neutral_query (.sub l x)) _
  | read => exact hP.asked (Script.neutral_query (.read l)) _
  | destroy =>
    exact asked (s := { s with leases := s.leases.erase slot }) hP
      (Script.neutral_query (.destroy l)) _
  | loadAdd load x => exact hP.loaded load (q := .add l x) rfl
  | loadSub load x => exact hP.loaded load (q := .sub l x) rfl
  | limit | handle | equals other | write block => exact hP.refl s.registry

theorem takeNewMovable (hP : s.distortion.IsLaw P) (slot : Nat) (limit : Amount) (p : Placement) :
    P s.registry (s.takeNewMovable slot limit p).events
      (s.takeNewMovable slot limit p).session.registry := by
  have hmade := hP.changed slot (Movable.neutral_make limit p)
  simp only [Session.takeNewMovable]
  split
  · rename_i old _ _
    have hd := s.distortion_changed slot (Movable.make limit p)
    exact hP.chain hmade (asked (hd ▸ hP) old.neutral_drop _)
  · exact hmade

theorem takeMovable (hP : s.distortion.IsLaw P) (slot : Nat) (m : Movable) (q : MovableStep) :
    P s.registry (s.takeMovable slot m q).events (s.takeMovable slot m q).session.registry := by
  cases q with
  | add x => exact hP.changed slot (m.neutral_add x)
  | sub x => exact hP.changed slot (m.neutral_sub x)
  | move => exact hP.changed slot m.neutral_move
  | read => exact hP.asked m.neutral_read _
  | headroom => exact hP.asked m.neutral_headroom _
  | write block => exact hP.asked m.neutral_layout _
  | drop => exact asked (s := { s with movables := s.movables.erase slot }) hP m.neutral_drop _
  | limit | isHosted | placement | isServedHere => exact hP.refl s.registry

theorem take (hP : s.distortion.IsLaw P) {q : Step} (hq : q.createsAside = false) :
    P s.registry (s.take q).events (s.take q).session.registry := by
  have honSlot {β : Type} (held : Option β) {f : β → Taken}
      (hf : ∀ b, P s.registry (f b).events (f b).session.registry) :
      P s.registry (s.onSlot held f).events (s.onSlot held f).session.registry := by
    cases held with
    | none => exact hP.refl s.registry
    | some b => exact hf b
  cases q with
  | newCounter slot limit | forgeLease slot l => exact hP.refl s.registry
  | counter slot q => exact honSlot _ fun c => hP.takeCounter slot c q
  | newLease slot limit => exact hP.takeNewLease slot limit
  | lease slot q => exact honSlot _ fun l => hP.takeLease slot l q
  | newMovable slot limit p => exact hP.takeNewMovable slot limit p
  | movable slot q => exact honSlot _ fun m => hP.takeMovable slot m q
  | registry q =>
    cases q with
    | setGate isOpen => exact hP.setGate isOpen s.registry
    | loadCreate load limit destroy => cases hq
    | live | isOpen | write block => exact hP.refl s.registry

theorem run (hP : s.distortion.IsLaw P) {qs : List Step}
    (hqs : ∀ q ∈ qs, q.createsAside = false) :
    P s.registry ((s.run qs).1.flatMap Report.events) (s.reach qs).registry := by
  induction qs generalizing s with
  | nil => exact hP.refl s.registry
  | cons q qs ih =>
    have hd : (s.take q).session.distortion.IsLaw P := (s.distortion_take q).symm ▸ hP
    have hrest := ih hd fun q' hq' => hqs q' (List.mem_cons_of_mem _ hq')
    exact hP.chain (hP.take (hqs q List.mem_cons_self)) hrest

/-- At the end of a session a registry is left with as many counters as are told. -/
theorem exists_dropAll {d : Distortion} (hP : d.IsLaw P) (r : Registry)
    (held : List (Nat × Movable)) :
    ∃ r', P r (dropAll d r held).events r' ∧ (dropAll d r held).live = r'.live := by
  induction held generalizing r with
  | nil => exact ⟨r, hP.refl r, rfl⟩
  | cons e held ih =>
    obtain ⟨slot, m⟩ := e
    obtain ⟨r', hrest, hlive⟩ := ih ((d.carryOut m.drop).run r).registry
    exact ⟨r', hP.chain (hP.calls r m.neutral_drop) hrest, hlive⟩

end IsLaw

end Distortion

end Abacus
